import Heirloom.Frame

/-!
# Withdrawals

The ways funds leave a locked vault on the owner's behalf: direct withdrawals
with their limits, whitelist and reversal records, batches, partial
liquidation, escrows, approval requests and schedules.
-/

namespace Heirloom

open Transaction

/-- Like `require`, but a failure is first entered in the withdrawal audit log,
for which the vault is loaded. The entry itself is rolled back with the call. -/
def requireAudited (vaultId : Nat) (c : Prop) [Decidable c] (err : ContractError) :
    Contract Unit :=
  if c then
    pure ()
  else do
    let _ ← loadVault vaultId
    abort (.error err)

section

variable {e : Env} {s t : State} {vaultId : Nat} {c : Prop} [Decidable c] {err : ContractError}

@[simp] theorem ok_requireAudited {u : Unit} :
    requireAudited vaultId c err e s = .ok (u, t) ↔ c ∧ s = t := by
  by_cases hc : c <;> simp [requireAudited, hc]

@[simp ↓] theorem wp_requireAudited {Q : Unit → State → Prop} :
    wp (requireAudited vaultId c err) Q e s ↔ (c → Q () s) := by
  by_cases hc : c <;> simp [requireAudited, hc]

end

/-! ## Limits, whitelist and reversal records -/

def setWithdrawalLimits (vaultId : Nat) (caller : Address)
    (dailyLimit weeklyLimit monthlyLimit : Int) : Contract Unit := do
  require ((← loadPaused) = false) .paused
  requireAuth caller
  let vault ← loadVault vaultId
  require (caller = vault.owner) .notOwner
  storageSet (.withdrawalLimit vaultId) ⟨dailyLimit, weeklyLimit, monthlyLimit⟩

/-- The tracker of a vault that has made no limited withdrawal yet. -/
def freshTracker (now : Nat) : Contract WithdrawalTracker := do
  return ⟨0, ← u64 (now + oneDay), 0, ← u64 (now + oneWeek), 0, ← u64 (now + thirtyDays)⟩

/-- Starts a new window if the current one has passed. -/
def rollWindow (now : Nat) (withdrawn : Int) (resetAt period : Nat) : Contract (Int × Nat) :=
  if resetAt ≤ now then do
    return (0, ← u64 (now + period))
  else
    pure (withdrawn, resetAt)

def checkWithdrawalLimits (vaultId : Nat) (amount : Int) : Contract Unit := do
  ifSome (← storageGet (.withdrawalLimit vaultId)) fun (limits : WithdrawalLimit) => do
    let now ← timestamp
    let stored : Option WithdrawalTracker ← storageGet (.withdrawalTracker vaultId)
    let tracker ← ifSomeElse stored pure (freshTracker now)
    let daily ← rollWindow now tracker.dailyWithdrawn tracker.dailyResetAt oneDay
    let weekly ← rollWindow now tracker.weeklyWithdrawn tracker.weeklyResetAt oneWeek
    let monthly ← rollWindow now tracker.monthlyWithdrawn tracker.monthlyResetAt thirtyDays
    let dailyTotal ← i128 (daily.1 + amount)
    require (dailyTotal ≤ limits.dailyLimit) .dailyWithdrawalLimitExceeded
    let weeklyTotal ← i128 (weekly.1 + amount)
    require (weeklyTotal ≤ limits.weeklyLimit) .weeklyWithdrawalLimitExceeded
    let monthlyTotal ← i128 (monthly.1 + amount)
    require (monthlyTotal ≤ limits.monthlyLimit) .monthlyWithdrawalLimitExceeded
    storageSet (.withdrawalTracker vaultId)
      ⟨dailyTotal, daily.2, weeklyTotal, weekly.2, monthlyTotal, monthly.2⟩

def addWhitelistAddress (vaultId : Nat) (caller address : Address) (label : String) :
    Contract Unit := do
  require ((← loadPaused) = false) .paused
  requireAuth caller
  let vault ← loadVault vaultId
  require (caller = vault.owner) .notOwner
  let whitelist : List WhitelistEntry := (← storageGet (.withdrawalWhitelist vaultId)).getD []
  storageSet (.withdrawalWhitelist vaultId) (whitelist ++ [⟨address, ← timestamp, label⟩])

def removeWhitelistAddress (vaultId : Nat) (caller address : Address) : Contract Unit := do
  require ((← loadPaused) = false) .paused
  requireAuth caller
  let vault ← loadVault vaultId
  require (caller = vault.owner) .notOwner
  ifSome (← storageGet (.withdrawalWhitelist vaultId)) fun (whitelist : List WhitelistEntry) =>
    storageSet (.withdrawalWhitelist vaultId) (whitelist.filter (·.address ≠ address))

/-- `address` is on the whitelist `o`; without a whitelist every address is. -/
def OnWhitelist (address : Address) (o : Option (List WhitelistEntry)) : Prop :=
  ∀ whitelist, o = some whitelist → ∃ entry ∈ whitelist, entry.address = address

instance (address : Address) (o : Option (List WhitelistEntry)) :
    Decidable (OnWhitelist address o) :=
  match o with
  | none => .isTrue fun _ h => nomatch h
  | some whitelist =>
      decidable_of_iff (∃ entry ∈ whitelist, entry.address = address)
        ⟨fun h _ hw => Option.some.inj hw ▸ h, fun h => h whitelist rfl⟩

def isWhitelisted (vaultId : Nat) (address : Address) : Contract Bool := do
  let whitelist : Option (List WhitelistEntry) ← storageGet (.withdrawalWhitelist vaultId)
  return decide (OnWhitelist address whitelist)

def recordWithdrawalForReversal (vaultId : Nat) (amount : Int) (gracePeriod : Nat) :
    Contract Unit := do
  let withdrawalId : Nat := (← storageGet (.withdrawalReversalCounter vaultId)).getD 0
  let now ← timestamp
  let until' ← u64 (now + gracePeriod)
  storageSet (.withdrawalReversal vaultId withdrawalId)
    ⟨withdrawalId, amount, now, until', false⟩
  storageSet (.withdrawalReversalCounter vaultId) (← u64 (withdrawalId + 1))

/-! ## Direct withdrawals -/

def withdraw (vaultId : Nat) (caller : Address) (amount : Int) : Contract Unit := do
  requireAudited vaultId ((← loadPaused) = false) .paused
  requireAudited vaultId (0 < amount) .invalidAmount
  requireAuth caller
  let vault ← loadVault vaultId
  require (vault.isPaused = false) .paused
  require (caller = vault.owner) .notOwner
  require (vault.status ≠ .emergencyFrozen) .vaultFrozen
  require (vault.status = .locked) .alreadyReleased
  require (vault.owner ≠ currentContractAddress) .invalidWithdrawDestination
  require (amount ≤ vault.balance) .insufficientBalance
  ifSome vault.withdrawalApprovalThreshold fun threshold =>
    require (amount ≤ threshold) .withdrawalNotApproved
  checkWithdrawalLimits vaultId amount
  require ((← isWhitelisted vaultId vault.owner) = true) .withdrawalDestinationNotWhitelisted
  transfer vault.tokenAddress currentContractAddress vault.owner amount
  let newBalance ← i128 (vault.balance - amount)
  recordWithdrawalForReversal vaultId amount oneDay
  saveVault vaultId (vault.withBalance newBalance)

def partialLiquidate (vaultId : Nat) (amount : Int) (percentageAllowed : Nat) :
    Contract Unit := do
  require ((← loadPaused) = false) .paused
  require (0 < amount) .invalidAmount
  require (percentageAllowed ≠ 0 ∧ percentageAllowed ≤ 100) .invalidPercentage
  let vault ← loadVault vaultId
  require (vault.isPaused = false) .paused
  requireAuth vault.owner
  require (vault.status ≠ .emergencyFrozen) .vaultFrozen
  require (vault.status = .locked) .alreadyReleased
  -- `get_ttl_remaining`, for the event
  let _ ← u64 (vault.lastCheckIn + vault.checkInInterval)
  let product := vault.balance * percentageAllowed
  require (i128Min ≤ product ∧ product ≤ i128Max) .liquidationExceedsLimit
  require (amount ≤ product.tdiv 100) .liquidationExceedsLimit
  require (amount ≤ vault.balance) .insufficientBalance
  transfer vault.tokenAddress currentContractAddress vault.owner amount
  let newBalance ← i128 (vault.balance - amount)
  saveVault vaultId (vault.withBalance newBalance)

/-- The checks of one withdrawal of a batch. -/
def validateBatchWithdrawal (caller : Address) (item : Nat × Int) : Contract Unit := do
  requireAudited item.1 (0 < item.2) .invalidAmount
  let vault ← loadVault item.1
  require (caller = vault.owner) .notOwner
  require (vault.status = .locked) .alreadyReleased
  require (item.2 ≤ vault.balance) .insufficientBalance

/-- Pays one withdrawal of a batch. The balance is not compared again. -/
def applyBatchWithdrawal (defaultToken : Address) (item : Nat × Int) : Contract Unit := do
  let vault ← loadVault item.1
  require (vault.tokenAddress = defaultToken) .invalidAmount
  transfer defaultToken currentContractAddress vault.owner item.2
  let newBalance ← i128 (vault.balance - item.2)
  saveVault item.1 (vault.withBalance newBalance)

def batchWithdraw (vaultIds : List Nat) (amounts : List Int) (caller : Address) :
    Contract Unit := do
  require ((← loadPaused) = false) .paused
  require (vaultIds.length = amounts.length) .invalidAmount
  requireAuth caller
  forEach (vaultIds.zip amounts) (validateBatchWithdrawal caller)
  let defaultToken ← loadToken
  forEach (vaultIds.zip amounts) (applyBatchWithdrawal defaultToken)

/-! ## Escrow, rollback and reversal -/

def createWithdrawalEscrow (vaultId : Nat) (amount : Int) (beneficiary caller : Address) :
    Contract Unit := do
  require (0 < amount) .invalidAmount
  requireAuth caller
  let vault ← loadVault vaultId
  require (caller = vault.owner) .notOwner
  require (amount ≤ vault.balance) .insufficientBalance
  storageSet (.withdrawalEscrow vaultId) ⟨vaultId, amount, ← timestamp, beneficiary, false⟩

/-- Pays an escrow out. The balance is not compared with the escrowed amount again. -/
def verifyWithdrawalEscrow (vaultId : Nat) (caller : Address) : Contract Unit := do
  requireAuth caller
  let vault ← loadVault vaultId
  let escrow : WithdrawalEscrow ← fromSome (← storageGet (.withdrawalEscrow vaultId))
    (.error .vaultNotFound)
  require (caller = escrow.beneficiary) .notBeneficiary
  require (escrow.verified = false) .invalidAmount
  transfer vault.tokenAddress currentContractAddress escrow.beneficiary escrow.amount
  let newBalance ← i128 (vault.balance - escrow.amount)
  saveVault vaultId (vault.withBalance newBalance)
  storageRemove (.withdrawalEscrow vaultId)

/-- Credits `rollbackAmount` to the vault; no tokens come back. -/
def rollbackWithdrawal (vaultId : Nat) (rollbackAmount : Int) (caller : Address) :
    Contract Unit := do
  require (0 < rollbackAmount) .invalidAmount
  requireAuth caller
  let vault ← loadVault vaultId
  require (caller = vault.owner) .notOwner
  let newBalance ← i128 (vault.balance + rollbackAmount)
  saveVault vaultId (vault.withBalance newBalance)

/-- Credits a recorded withdrawal to the vault again; no tokens come back. -/
def reverseWithdrawal (vaultId : Nat) (caller : Address) (withdrawalId : Nat) :
    Contract Unit := do
  require ((← loadPaused) = false) .paused
  requireAuth caller
  let vault ← loadVault vaultId
  require (caller = vault.owner) .notOwner
  let reversal : WithdrawalReversal ←
    fromSome (← storageGet (.withdrawalReversal vaultId withdrawalId)) (.error .vaultNotFound)
  require (reversal.reversed = false) .withdrawalAlreadyReversed
  require ((← timestamp) ≤ reversal.gracePeriodUntil) .withdrawalReversalGracePeriodExpired
  let newBalance ← i128 (vault.balance + reversal.amount)
  saveVault vaultId (vault.withBalance newBalance)
  storageSet (.withdrawalReversal vaultId withdrawalId) { reversal with reversed := true }

/-! ## Approval requests and schedules -/

def requestWithdrawalApproval (vaultId : Nat) (caller : Address) (amount : Int)
    (approvers : List Address) (requiredApprovals : Nat) : Contract Unit := do
  requireAuth caller
  let vault ← loadVault vaultId
  require (caller = vault.owner) .notOwner
  require (0 < amount) .invalidAmount
  require (requiredApprovals ≠ 0 ∧ requiredApprovals ≤ approvers.length) .invalidThreshold
  let now ← timestamp
  let expiresAt ← u64 (now + oneWeek)
  storageSet (.withdrawalApprovalRequest vaultId) ⟨amount, now, [], requiredApprovals, expiresAt⟩
  storageSet (.withdrawalApprovers vaultId) approvers

def approveWithdrawal (vaultId : Nat) (caller : Address) : Contract Unit := do
  requireAuth caller
  let approvers : List Address ← fromSome (← storageGet (.withdrawalApprovers vaultId))
    (.error .withdrawalNotApproved)
  require (caller ∈ approvers) .notASigner
  let req : WithdrawalApprovalRequest ←
    fromSome (← storageGet (.withdrawalApprovalRequest vaultId)) (.error .withdrawalNotApproved)
  require ((← timestamp) ≤ req.expiresAt) .proposalExpired
  require (caller ∉ req.approvals) .alreadyApproved
  storageSet (.withdrawalApprovalRequest vaultId)
    { req with approvals := req.approvals ++ [caller] }

def executeApprovedWithdrawal (vaultId : Nat) : Contract Unit := do
  let req : WithdrawalApprovalRequest ←
    fromSome (← storageGet (.withdrawalApprovalRequest vaultId)) (.error .withdrawalNotApproved)
  require (req.requiredApprovals ≤ req.approvals.length) .proposalNotApproved
  let vault ← loadVault vaultId
  require (req.amount ≤ vault.balance) .insufficientBalance
  transfer vault.tokenAddress currentContractAddress vault.owner req.amount
  let newBalance ← i128 (vault.balance - req.amount)
  saveVault vaultId (vault.withBalance newBalance)
  storageRemove (.withdrawalApprovalRequest vaultId)

def setWithdrawalSchedule (vaultId : Nat) (schedule : List (Nat × Int)) : Contract Unit := do
  assertNotPaused
  let vault ← loadVault vaultId
  requireAuth vault.owner
  require (∀ item ∈ schedule, 0 < item.2) .invalidAmount
  storageSet (.withdrawalSchedule vaultId) (schedule.map fun item => ⟨item.1, item.2⟩)

def getDelegatedBeneficiary (vaultId : Nat) : Contract (Option Address) :=
  storageGet (.beneficiaryDelegate vaultId)

/-- Progress of `executeScheduledWithdrawal` through the schedule. -/
structure ScheduleProgress where
  balance : Int
  entries : List WithdrawalScheduleEntry
  executed : Bool

/-- Pays one entry of the schedule if it is due. -/
def executeScheduleEntry (vaultId : Nat) (vault : Vault) (acc : ScheduleProgress)
    (entry : WithdrawalScheduleEntry) : Contract ScheduleProgress := do
  let now ← timestamp
  if entry.timestamp ≤ now ∧ 0 < entry.amount then do
    require (entry.amount ≤ acc.balance) .insufficientBalance
    let delegate ← getDelegatedBeneficiary vaultId
    transfer vault.tokenAddress currentContractAddress (delegate.getD vault.beneficiary)
      entry.amount
    let newBalance ← i128 (acc.balance - entry.amount)
    return ⟨newBalance, acc.entries ++ [⟨entry.timestamp, 0⟩], true⟩
  else
    return ⟨acc.balance, acc.entries ++ [entry], acc.executed⟩

def executeScheduledWithdrawal (vaultId : Nat) : Contract Unit := do
  assertNotPaused
  let vault ← loadVault vaultId
  let schedule : List WithdrawalScheduleEntry ←
    fromSome (← storageGet (.withdrawalSchedule vaultId)) (.error .noScheduledWithdrawals)
  let progress ← foldEach schedule ⟨vault.balance, [], false⟩
    (executeScheduleEntry vaultId vault)
  require (progress.executed = true) .noScheduledWithdrawals
  saveVault vaultId (vault.withBalance progress.balance)
  storageSet (.withdrawalSchedule vaultId) progress.entries

/-- The entry points about withdrawals. -/
inductive WithdrawalCall
  | setWithdrawalLimits (vaultId : Nat) (caller : Address)
      (dailyLimit weeklyLimit monthlyLimit : Int)
  | addWhitelistAddress (vaultId : Nat) (caller address : Address) (label : String)
  | removeWhitelistAddress (vaultId : Nat) (caller address : Address)
  | withdraw (vaultId : Nat) (caller : Address) (amount : Int)
  | partialLiquidate (vaultId : Nat) (amount : Int) (percentageAllowed : Nat)
  | batchWithdraw (vaultIds : List Nat) (amounts : List Int) (caller : Address)
  | createWithdrawalEscrow (vaultId : Nat) (amount : Int) (beneficiary caller : Address)
  | verifyWithdrawalEscrow (vaultId : Nat) (caller : Address)
  | rollbackWithdrawal (vaultId : Nat) (rollbackAmount : Int) (caller : Address)
  | reverseWithdrawal (vaultId : Nat) (caller : Address) (withdrawalId : Nat)
  | requestWithdrawalApproval (vaultId : Nat) (caller : Address) (amount : Int)
      (approvers : List Address) (requiredApprovals : Nat)
  | approveWithdrawal (vaultId : Nat) (caller : Address)
  | executeApprovedWithdrawal (vaultId : Nat)
  | setWithdrawalSchedule (vaultId : Nat) (schedule : List (Nat × Int))
  | executeScheduledWithdrawal (vaultId : Nat)

def execWithdrawal : WithdrawalCall → Contract Unit
  | .setWithdrawalLimits v c d w m => setWithdrawalLimits v c d w m
  | .addWhitelistAddress v c a l => addWhitelistAddress v c a l
  | .removeWhitelistAddress v c a => removeWhitelistAddress v c a
  | .withdraw v c x => withdraw v c x
  | .partialLiquidate v x p => partialLiquidate v x p
  | .batchWithdraw vs xs c => batchWithdraw vs xs c
  | .createWithdrawalEscrow v x b c => createWithdrawalEscrow v x b c
  | .verifyWithdrawalEscrow v c => verifyWithdrawalEscrow v c
  | .rollbackWithdrawal v x c => rollbackWithdrawal v x c
  | .reverseWithdrawal v c w => reverseWithdrawal v c w
  | .requestWithdrawalApproval v c x as n => requestWithdrawalApproval v c x as n
  | .approveWithdrawal v c => approveWithdrawal v c
  | .executeApprovedWithdrawal v => executeApprovedWithdrawal v
  | .setWithdrawalSchedule v l => setWithdrawalSchedule v l
  | .executeScheduledWithdrawal v => executeScheduledWithdrawal v

/-! ## What the withdrawals do -/

section Specs

variable {e : Env} {s : State} {id : Nat} {caller : Address} {amount : Int}

@[simp ↓] theorem wp_recordWithdrawalForReversal {g : Nat} {Q : Unit → State → Prop} :
    wp (recordWithdrawalForReversal id amount g) Q e s ↔
      (e.timestamp + g ≤ u64Max → (s.get (.withdrawalReversalCounter id)).getD 0 + 1 ≤ u64Max →
        Q () ((s.put (.withdrawalReversal id ((s.get (.withdrawalReversalCounter id)).getD 0))
          ⟨(s.get (.withdrawalReversalCounter id)).getD 0, amount, e.timestamp, e.timestamp + g,
            false⟩).put (.withdrawalReversalCounter id)
              ((s.get (.withdrawalReversalCounter id)).getD 0 + 1))) := by
  simp [recordWithdrawalForReversal]

@[simp ↓] theorem wp_isWhitelisted {a : Address} {Q : Bool → State → Prop} :
    wp (isWhitelisted id a) Q e s ↔
      Q (decide (OnWhitelist a (s.get (.withdrawalWhitelist id)))) s := by
  simp [isWhitelisted]

/-- The limits are compared and the tracker advanced; nothing else changes. -/
theorem checkWithdrawalLimits_frame :
    wp (checkWithdrawalLimits id amount)
      (fun _ t => t = s ∨ ∃ tracker, t = s.put (.withdrawalTracker id) tracker) e s := by
  simp [checkWithdrawalLimits, freshTracker, rollWindow]

/-- The guards that every payment of `amount` to the owner of `v` passes. -/
structure OwnerPayment (e : Env) (v : Vault) (caller : Address) (amount : Int) : Prop where
  positive : 0 < amount
  covered : amount ≤ v.balance
  locked : v.status = .locked
  owner : caller = v.owner
  authorized : e.authorized caller = true

theorem withdraw_spec :
    wp (withdraw id caller amount)
      (fun _ t => ∃ v, Transacts id v (v.withBalance (v.balance - amount))
        [outgoing v.tokenAddress v.owner amount] s t ∧ OwnerPayment e v caller amount ∧
        v.isPaused = false ∧ (∀ x, v.withdrawalApprovalThreshold = some x → amount ≤ x) ∧
        OnWhitelist v.owner (s.get (.withdrawalWhitelist id))) e s := by
  simp [withdraw]
  intro _ hpos hauth v hv hpaused howner _ hlocked _ hle hthreshold
  refine Tx.wp_mono checkWithdrawalLimits_frame ?_
  rintro _ t (rfl | ⟨tracker, rfl⟩) hlisted _ _ _ _ _
  · exact ⟨v, .save hv (by simp) rfl (fair_outgoing hpos.le) rfl, ⟨hpos, hle, hlocked, howner, hauth⟩,
      hpaused, hthreshold, hlisted⟩
  · exact ⟨v, .save hv (by simp) rfl (fair_outgoing hpos.le) rfl, ⟨hpos, hle, hlocked, howner, hauth⟩,
      hpaused, hthreshold, by simpa using hlisted⟩

theorem partialLiquidate_spec {percentage : Nat} :
    wp (partialLiquidate id amount percentage)
      (fun _ t => ∃ v, Transacts id v (v.withBalance (v.balance - amount))
        [outgoing v.tokenAddress v.owner amount] s t ∧ OwnerPayment e v v.owner amount ∧
        v.isPaused = false) e s := by
  simp [partialLiquidate]
  intro _ hpos _ _ v hv hpaused hauth _ hlocked _ _ _ _ hle _ _ _
  exact ⟨v, .save hv (fun _ => rfl) rfl (fair_outgoing hpos.le) rfl,
    ⟨hpos, hle, hlocked, rfl, hauth⟩, hpaused⟩

/-- One round of a batch. The amount is not compared with the balance. -/
theorem applyBatchWithdrawal_spec {token : Address} {item : Nat × Int} :
    wp (applyBatchWithdrawal token item)
      (fun _ t => ∃ v, Transacts item.1 v (v.withBalance (v.balance - item.2))
        [outgoing v.tokenAddress v.owner item.2] s t ∧ v.tokenAddress = token) e s := by
  simp [applyBatchWithdrawal]
  rintro v hv rfl hpay _ _
  exact ⟨v, .save hv (fun _ => rfl) rfl (fair_outgoing hpay.1) rfl, rfl⟩

/-- The checks of a batch, each against the balance before the batch. -/
theorem validateBatch_spec {items : List (Nat × Int)} :
    wp (forEach items (validateBatchWithdrawal caller))
      (fun _ t => t = s ∧ ∀ item ∈ items, ∃ v, s.vault item.1 = some v ∧ 0 < item.2 ∧
        item.2 ≤ v.balance ∧ v.status = .locked ∧ caller = v.owner) e s := by
  induction items with
  | nil => simp [forEach]
  | cons item items ih =>
      simp only [forEach, validateBatchWithdrawal, Tx.wp_bind, wp_requireAudited, wp_loadVault,
        wp_require, List.forall_mem_cons]
      intro hpos v hv howner hlocked hle
      refine Tx.wp_mono ih ?_
      rintro _ _ ⟨rfl, hitems⟩
      exact ⟨rfl, ⟨v, hv, hpos, hle, hlocked, howner⟩, hitems⟩

/-- The invariant rule of `batchWithdraw`. -/
theorem batchWithdraw_rule {ids : List Nat} {amounts : List Int} {I : State → Prop}
    (hstep : (∀ item ∈ ids.zip amounts, ∃ v, s.vault item.1 = some v ∧ 0 < item.2 ∧
        item.2 ≤ v.balance ∧ v.status = .locked ∧ caller = v.owner) → e.authorized caller = true →
      ∀ item ∈ ids.zip amounts, ∀ v t u, I t →
        Transacts item.1 v (v.withBalance (v.balance - item.2))
          [outgoing v.tokenAddress v.owner item.2] t u → I u)
    (hs : I s) : wp (batchWithdraw ids amounts caller) (fun _ t => I t) e s := by
  simp only [batchWithdraw, Tx.wp_bind, wp_loadPaused, wp_require, wp_requireAuth]
  intro _ _ hauth
  refine Tx.wp_mono validateBatch_spec ?_
  rintro _ t ⟨ht, hitems⟩
  obtain rfl := ht.symm
  simp only [wp_loadToken]
  intro token _
  refine Tx.wp_forEach (fun item hitem t hI => ?_) hs
  refine Tx.wp_mono applyBatchWithdrawal_spec ?_
  rintro _ u ⟨v, hu, -⟩
  exact hstep hitems hauth item hitem v t u hI hu

/-- An escrow is paid whether or not the balance still covers it. -/
theorem verifyWithdrawalEscrow_spec :
    wp (verifyWithdrawalEscrow id caller)
      (fun _ t => ∃ v escrow, Transacts id v (v.withBalance (v.balance - escrow.amount))
        [outgoing v.tokenAddress escrow.beneficiary escrow.amount] s t ∧
        s.get (.withdrawalEscrow id) = some escrow ∧ 0 ≤ escrow.amount) e s := by
  simp [verifyWithdrawalEscrow]
  intro _ v hv escrow hescrow _ _ hpay _ _
  exact ⟨v, escrow, .save hv (fun _ => rfl) rfl (fair_outgoing hpay.1) rfl, hescrow, hpay.1⟩

/-- A rollback raises the balance; no tokens move. -/
theorem rollbackWithdrawal_spec :
    wp (rollbackWithdrawal id amount caller)
      (fun _ t => ∃ v, Transacts id v (v.withBalance (v.balance + amount)) [] s t ∧
        0 < amount) e s := by
  simp only [rollbackWithdrawal, Tx.wp_bind, wp_require, wp_requireAuth, wp_loadVault, wp_i128,
    wp_saveVault]
  intro hpos _ v hv _ _
  exact ⟨v, .save hv (fun _ => rfl) rfl fair_nil rfl, hpos⟩

/-- A reversal raises the balance; no tokens move. -/
theorem reverseWithdrawal_spec {withdrawalId : Nat} :
    wp (reverseWithdrawal id caller withdrawalId)
      (fun _ t => ∃ v reversal, Transacts id v (v.withBalance (v.balance + reversal.amount)) [] s t ∧
        s.get (.withdrawalReversal id withdrawalId) = some reversal) e s := by
  simp [reverseWithdrawal]
  intro _ _ v hv _ reversal hreversal _ _ _ _
  exact ⟨v, reversal, .save hv (fun _ => rfl) rfl fair_nil rfl, hreversal⟩

theorem executeApprovedWithdrawal_spec :
    wp (executeApprovedWithdrawal id)
      (fun _ t => ∃ v amount, Transacts id v (v.withBalance (v.balance - amount))
        [outgoing v.tokenAddress v.owner amount] s t ∧ 0 ≤ amount ∧ amount ≤ v.balance) e s := by
  simp [executeApprovedWithdrawal]
  intro req _ _ v hv hle hpay _ _
  exact ⟨v, req.amount, .save hv (fun _ => rfl) rfl (fair_outgoing hpay.1) rfl, hpay.1, hle⟩

/-- How far `executeScheduledWithdrawal` has come: the transfers made so far took
the balance down with them, and an entry is only paid while the balance covers it. -/
structure ScheduleInvariant (s : State) (v : Vault) (log : Log) (acc : ScheduleProgress)
    (t : State) : Prop where
  state : t = s.transferAll log
  fair : Fair v.tokenAddress log
  balance : acc.balance = v.balance + flow log
  paid : flow log ≤ 0
  covered : acc.executed = true → 0 ≤ acc.balance

theorem executeScheduleEntry_spec {v : Vault} {log : Log} {acc : ScheduleProgress}
    {entry : WithdrawalScheduleEntry} {t : State} (h : ScheduleInvariant s v log acc t) :
    wp (executeScheduleEntry id v acc entry)
      (fun acc' u => ∃ log', ScheduleInvariant s v log' acc' u) e t := by
  obtain ⟨rfl, hfair, hbalance, hpaid, hcovered⟩ := h
  simp only [executeScheduleEntry, getDelegatedBeneficiary, Tx.wp_bind, wp_timestamp, Tx.wp_ite,
    wp_require, wp_storageGet, wp_transfer, wp_i128, Tx.wp_pure]
  refine ⟨fun _ hle hpay _ => ?_, fun _ => ⟨log, rfl, hfair, hbalance, hpaid, hcovered⟩⟩
  refine ⟨_, State.pay_transferAll, hfair.append (fair_outgoing hpay.1), ?_, ?_, fun _ => ?_⟩
  · simp [hbalance, Int.add_assoc, Int.sub_eq_add_neg]
  · rw [flow_append, flow_outgoing]
    have := hpay.1
    omega
  · simpa using hle

/-- A scheduled withdrawal pays the entries that are due, as far as the balance covers them. -/
theorem executeScheduledWithdrawal_spec :
    wp (executeScheduledWithdrawal id)
      (fun _ t => ∃ v log, Transacts id v (v.withBalance (v.balance + flow log)) log s t ∧
        0 ≤ v.balance + flow log ∧ flow log ≤ 0) e s := by
  simp only [executeScheduledWithdrawal, Tx.wp_bind, wp_assertNotPaused, wp_loadVault,
    wp_storageGet, Tx.wp_fromSome]
  intro _ v hv schedule _
  have hentry : ∀ entry ∈ schedule, ∀ acc t, (∃ log, ScheduleInvariant s v log acc t) →
      wp (executeScheduleEntry id v acc entry)
        (fun acc' t => ∃ log, ScheduleInvariant s v log acc' t) e t := by
    rintro entry - acc t ⟨log, h⟩
    exact executeScheduleEntry_spec h
  refine Tx.wp_mono (Tx.wp_foldEach (I := fun acc t => ∃ log, ScheduleInvariant s v log acc t)
    hentry ⟨[], rfl, fair_nil, by simp, by simp, by simp⟩) ?_
  rintro acc _ ⟨log, rfl, hfair, hbalance, hpaid, hcovered⟩
  simp only [wp_require, wp_saveVault, wp_storageSet]
  intro hexecuted
  rw [hbalance] at hcovered ⊢
  exact ⟨v, log, by simpa using .save hv (fun _ => rfl) rfl hfair rfl, hcovered hexecuted, hpaid⟩

end Specs

/-! ## Frames -/

/-- What a call about withdrawals may write. -/
def WithdrawalCall.footprint : WithdrawalCall → Footprint
  | .withdraw v _ _ | .partialLiquidate v _ _ | .verifyWithdrawalEscrow v _
  | .executeApprovedWithdrawal v => ⟨[v], [.balance, .funds], [.withdrawals]⟩
  | .executeScheduledWithdrawal v => ⟨[v], [.balance, .funds], [.payouts]⟩
  | .batchWithdraw vs _ _ => ⟨vs, [.balance, .funds], []⟩
  | .rollbackWithdrawal v _ _ | .reverseWithdrawal v _ _ => ⟨[v], [.balance], [.withdrawals]⟩
  | .setWithdrawalLimits v _ _ _ _ | .addWhitelistAddress v _ _ _
  | .removeWhitelistAddress v _ _ | .createWithdrawalEscrow v _ _ _
  | .requestWithdrawalApproval v _ _ _ _ | .approveWithdrawal v _ => ⟨[v], [], [.withdrawals]⟩
  | .setWithdrawalSchedule v _ => ⟨[v], [], [.payouts]⟩

section Frames

variable {e : Env} {s : State}

theorem batchWithdraw_frame {ids : List Nat} {amounts : List Int} {caller : Address} :
    wp (batchWithdraw ids amounts caller)
      (fun _ t => Frame ⟨ids, [.balance, .funds], []⟩ s t) e s := by
  simp only [batchWithdraw, Tx.wp_bind, wp_loadPaused, wp_require, wp_requireAuth]
  intro _ _ _
  refine Tx.wp_mono validateBatch_spec ?_
  rintro _ t ⟨ht, -⟩
  obtain rfl := ht.symm
  simp only [wp_loadToken]
  intro token _
  refine Tx.wp_forEach (fun item hitem t hI => ?_) .refl
  simp [applyBatchWithdrawal]
  intro v hv _ _ _ _
  have hid : item.1 ∈ ids := (List.of_mem_zip hitem).1
  have hpaid : Frame ⟨ids, [.balance, .funds], []⟩ s
      (t.pay token currentContractAddress v.owner item.2) := by simpa using hI
  exact hpaid.save hid hv (by simp [Vault.agreeOff_iff])

theorem executeScheduledWithdrawal_frame {id : Nat} :
    wp (executeScheduledWithdrawal id)
      (fun _ t => Frame ⟨[id], [.balance, .funds], [.payouts]⟩ s t) e s := by
  simp only [executeScheduledWithdrawal, Tx.wp_bind, wp_assertNotPaused, wp_loadVault,
    wp_storageGet, Tx.wp_fromSome]
  intro _ v hv schedule _
  refine Tx.wp_mono (Tx.wp_foldEach
    (I := fun _ t => Frame ⟨[id], [.balance, .funds], [.payouts]⟩ s t) ?_ .refl) ?_
  · intro entry _ acc t ht
    simp [executeScheduleEntry, getDelegatedBeneficiary, ht]
  · intro acc t ht
    simp [ht, hv, Vault.agreeOff_iff]

theorem execWithdrawal_frame (c : WithdrawalCall) :
    wp (execWithdrawal c) (fun _ t => Frame c.footprint s t) e s := by
  cases c with
  | setWithdrawalLimits =>
      simp [execWithdrawal, WithdrawalCall.footprint, setWithdrawalLimits]
  | addWhitelistAddress =>
      simp [execWithdrawal, WithdrawalCall.footprint, addWhitelistAddress]
  | removeWhitelistAddress =>
      simp [execWithdrawal, WithdrawalCall.footprint, removeWhitelistAddress]
  | withdraw =>
      simp [execWithdrawal, WithdrawalCall.footprint, withdraw]
      intros
      refine Tx.wp_mono checkWithdrawalLimits_frame ?_
      rintro _ _ (rfl | ⟨tracker, rfl⟩) <;> intros <;> simp [*, Vault.agreeOff_iff]
  | partialLiquidate =>
      simp [execWithdrawal, WithdrawalCall.footprint, partialLiquidate]
      intros
      simp [*, Vault.agreeOff_iff]
  | batchWithdraw => exact batchWithdraw_frame
  | createWithdrawalEscrow =>
      simp [execWithdrawal, WithdrawalCall.footprint, createWithdrawalEscrow]
  | verifyWithdrawalEscrow =>
      simp [execWithdrawal, WithdrawalCall.footprint, verifyWithdrawalEscrow]
      intros
      simp [*, Vault.agreeOff_iff]
  | rollbackWithdrawal =>
      simp [execWithdrawal, WithdrawalCall.footprint, rollbackWithdrawal]
      intros
      simp [*, Vault.agreeOff_iff]
  | reverseWithdrawal =>
      simp [execWithdrawal, WithdrawalCall.footprint, reverseWithdrawal]
      intros
      simp [*, Vault.agreeOff_iff]
  | requestWithdrawalApproval =>
      simp [execWithdrawal, WithdrawalCall.footprint, requestWithdrawalApproval]
  | approveWithdrawal =>
      simp [execWithdrawal, WithdrawalCall.footprint, approveWithdrawal]
  | executeApprovedWithdrawal =>
      simp [execWithdrawal, WithdrawalCall.footprint, executeApprovedWithdrawal]
      intros
      simp [*, Vault.agreeOff_iff]
  | setWithdrawalSchedule =>
      simp [execWithdrawal, WithdrawalCall.footprint, setWithdrawalSchedule]
  | executeScheduledWithdrawal => exact executeScheduledWithdrawal_frame

end Frames

end Heirloom
