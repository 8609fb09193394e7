import Heirloom.Vaults
import Heirloom.CheckIns
import Heirloom.Payouts

/-!
# Releasing a vault

Paying a vault out to its heirs: `trigger_release` in its two modes and
`panic_release`, the owner's `partial_release`, and the reveal of a hidden
beneficiary.
-/

namespace Heirloom

open Transaction

/-! ## Whether a release may happen -/

def getReleaseConditions (vaultId : Nat) : Contract (List ReleaseCondition) := do
  let stored : Option (List ReleaseCondition) ← storageGet (.releaseConditions vaultId)
  ifSomeElse stored pure do
    let vault ← loadVault vaultId
    return [vault.releaseCondition]

/-- `oracle::query`: an oracle that fails to answer has not met its condition. -/
def oracleQuery (address : Address) : Contract Bool :=
  ask fun e => (e.queryRelease address).getD false

/-- One release condition, for a release in the given mode. -/
def conditionMet (vaultId : Nat) (mode : ReleaseTrigger) : ReleaseCondition → Contract Bool
  | .ttlExpiry => isExpired vaultId
  | .ownerInitiated => pure (decide (mode = .manual))
  | .oracle address => oracleQuery address

/-- Whether some condition is met; all of them are looked at. -/
def anyConditionMet (vaultId : Nat) (mode : ReleaseTrigger) (conditions : List ReleaseCondition) :
    Contract Bool :=
  foldEach conditions false fun met condition => do
    let here ← conditionMet vaultId mode condition
    return met || here

/-- The deadline, moved out by the hibernation so far. -/
def expiryTime (vaultId : Nat) (vault : Vault) : Contract Nat := do
  let now ← timestamp
  let hibernation : Option HibernationEntry ← storageGet (.hibernation vaultId)
  let hibernated := hibernation.elim 0 fun h => min (now - h.startedAt) h.durationSeconds
  let deadline ← u64 (vault.lastCheckIn + vault.checkInInterval)
  u64 (deadline + hibernated)

/-- The grace period after the deadline is over. -/
def assertGracePeriodOver (vaultId : Nat) (vault : Vault) : Contract Unit := do
  let now ← timestamp
  let expiryTime ← expiryTime vaultId vault
  let gracePeriod : Nat := (← storageGet .releaseGracePeriodSeconds).getD 0
  let graceEnd ← u64 (expiryTime + gracePeriod)
  require (graceEnd ≤ now) .gracePeriodActive

/-- The beneficiary's veto, which only counts while the vault has not expired. -/
def assertNotVetoed (vaultId : Nat) : Contract Unit := do
  let expired ← isExpired vaultId
  let vetoed : Bool := (← storageGet (.beneficiaryReleaseConditionVeto vaultId)).getD false
  require (expired = true ∨ vetoed = false) .beneficiaryVetoReleaseCondition

def getBeneficiaryStatus (vaultId : Nat) : Contract BeneficiaryStatus := do
  return (← storageGet (.beneficiaryStatus vaultId)).getD .pending

def checkConditionalAcceptanceThreshold (vaultId : Nat) (currentBalance : Int) :
    Contract Bool := do
  let acceptance : Option BeneficiaryConditionalAcceptance ←
    storageGet (.beneficiaryConditionalAcceptance vaultId)
  return acceptance.all fun a => decide (a.minBalanceThreshold ≤ currentBalance)

/-- A current proof of life, which is needed as soon as voting is set up. -/
def assertProofOfLife (vaultId now : Nat) : Contract Unit := do
  let voting : Option Nat ← storageGet (.releaseVoteThreshold vaultId)
  let proof : Option ProofOfLifeEntry ← storageGet (.proofOfLife vaultId)
  ifSomeElse proof
    (fun (p : ProofOfLifeEntry) => require (now ≤ p.validUntil) .proofOfLifeRequired)
    (require (voting.isSome = false) .proofOfLifeRequired)

def assertVotesPassed (vaultId : Nat) : Contract Unit := do
  ifSome (← storageGet (.releaseVoteThreshold vaultId)) fun (threshold : Nat) => do
    let votes : List ReleaseVoteEntry := (← storageGet (.releaseVotes vaultId)).getD []
    require (threshold ≤ votes.countP (·.approve)) .votingNotEnabled

/-- What the heirs' side has to have settled before a release. -/
def assertHeirsReady (vaultId : Nat) (vault : Vault) : Contract Unit := do
  onlyIf (vault.beneficiaries = []) do
    require ((← getBeneficiaryStatus vaultId) ≠ .declined) .invalidBeneficiary
  require ((← checkConditionalAcceptanceThreshold vaultId vault.balance) = true)
    .insufficientBalance
  assertProofOfLife vaultId (← timestamp)
  assertVotesPassed vaultId

/-! ## Paying out -/

/-- The triggers set for an heir; the first mapping counts. -/
def heirTriggers (mappings : List (Address × List ReleaseTrigger)) (heir : Address) :
    List ReleaseTrigger :=
  ((mappings.find? (·.1 = heir)).map (·.2)).getD []

/-- Whether an heir takes part in a release of `releaseAmount`. -/
def qualifies (vaultId : Nat) (mappings : List (Address × List ReleaseTrigger))
    (releaseAmount : Int) (mode : ReleaseTrigger) (entry : BeneficiaryEntry) :
    Contract Bool := do
  let triggers := heirTriggers mappings entry.address
  let status : BeneficiaryStatus :=
    (← storageGet (.beneficiaryStatusEntry vaultId entry.address)).getD .pending
  let tierThreshold : Int :=
    (← storageGet (.beneficiaryTierThreshold vaultId entry.address)).getD 0
  if triggers ≠ [] ∧ mode ∉ triggers then
    return false
  else if status = .declined then
    return false
  else if 0 < tierThreshold ∧ releaseAmount < tierThreshold then
    return false
  else do
    let product ← i128 (releaseAmount * entry.bps)
    let initialShare := product.tdiv 10000
    return !decide (0 < entry.minimumThreshold ∧ initialShare < entry.minimumThreshold)

def qualifyingHeirs (vaultId : Nat) (mappings : List (Address × List ReleaseTrigger))
    (releaseAmount : Int) (mode : ReleaseTrigger) (entries : List BeneficiaryEntry) :
    Contract (List BeneficiaryEntry) :=
  foldEach entries [] fun qualifying entry => do
    let takesPart ← qualifies vaultId mappings releaseAmount mode entry
    return if takesPart then qualifying ++ [entry] else qualifying

/-- Splits `releaseAmount` among the heirs that qualify; if there is none, the
owner gets it back. -/
def distributeReleaseAmount (vaultId : Nat) (vault : Vault) (releaseAmount : Int)
    (mode : ReleaseTrigger) : Contract Unit := do
  let mappings : List (Address × List ReleaseTrigger) :=
    (← storageGet (.beneficiaryReleaseTriggers vaultId)).getD []
  let qualifying ← qualifyingHeirs vaultId mappings releaseAmount mode vault.beneficiaries
  if qualifying = [] then
    transfer vault.tokenAddress currentContractAddress vault.owner releaseAmount
  else
    payShares vault.tokenAddress releaseAmount ((min (totalBps qualifying) u32Max : Nat) : Int) 0
      qualifying

/-- What one release may pay. -/
def Vault.releaseAmount (vault : Vault) : Int :=
  match vault.spendingLimit with
  | some limit => min vault.balance limit
  | none => vault.balance

/-- The bookkeeping of a vault that has been released in full. -/
def archiveReleased (vaultId : Nat) (vault : Vault) : Contract Unit := do
  recordStateTransition vaultId .locked .released vault.owner
  storageSet (.archivedVault vaultId) vault
  storageRemove (.vaultDuplicate vault.owner vault.beneficiary vault.checkInInterval)

/-- A single beneficiary is paid in full; a list of heirs splits the net amount. -/
def payRelease (vaultId : Nat) (vault : Vault) (releaseAmount netAmount : Int)
    (mode : ReleaseTrigger) : Contract Unit :=
  if vault.beneficiaries = [] then
    transfer vault.tokenAddress currentContractAddress vault.beneficiary releaseAmount
  else
    distributeReleaseAmount vaultId vault netAmount mode

/-- The record after a release has left `newBalance`. -/
def Vault.released (vault : Vault) (newBalance : Int) : Vault :=
  (vault.withBalance newBalance).withStatus (if newBalance = 0 then .released else vault.status)

/-- Pays the heirs at once. The burned part stays in the contract: it leaves
the balance but no transfer is made for it. -/
def releaseFunds (vaultId : Nat) (vault : Vault) (mode : ReleaseTrigger) : Contract Unit := do
  let releaseAmount := vault.releaseAmount
  let burnProduct ← i128 (releaseAmount * vault.burnPercentage)
  let burnAmount := burnProduct.tdiv 10000
  let netAmount ← i128 (releaseAmount - burnAmount)
  payRelease vaultId vault releaseAmount netAmount mode
  let newBalance ← i128 (vault.balance - releaseAmount)
  saveVault vaultId (vault.released newBalance)
  onlyIf (newBalance = 0) (archiveReleased vaultId (vault.released newBalance))

/-- Whether some vesting schedule keeps the balance in the vault. -/
def hasVesting (vaultId : Nat) (vault : Vault) : Contract Bool := do
  let schedule : Option VestingSchedule ← storageGet (.vestingSchedule vaultId 0)
  let milestones : Option MilestoneVestingSchedule ←
    storageGet (.milestoneVestingSchedule vaultId)
  let heirSchedules ← read fun s =>
    (vault.beneficiary :: vault.beneficiaries.map (·.address)).any fun heir =>
      (s.get (.beneficiaryVestingSchedule vaultId heir)).isSome
  return schedule.isSome || milestones.isSome || heirSchedules

def markReleaseAttempted (vaultId : Nat) : Contract Unit :=
  storageSet (.releaseAttempted vaultId) true

/-- The release proper, after all checks: to a vesting schedule or to the heirs. -/
def releaseToHeirs (vaultId : Nat) (vault : Vault) (mode : ReleaseTrigger) : Contract Unit := do
  let beneficiaries ← applyRotation vaultId (← timestamp) vault.beneficiaries
  let rotated := vault.withBeneficiaries beneficiaries
  let vesting ← hasVesting vaultId rotated
  markReleaseAttempted vaultId
  if vesting = true then do
    saveVault vaultId (rotated.withStatus .released)
    recordStateTransition vaultId .locked .released vault.owner
  else
    releaseFunds vaultId rotated mode

/-- The owner did not approve the heir's conditions in time. -/
def ConditionalAcceptanceEntry.lapsed (entry : ConditionalAcceptanceEntry) (now : Nat) : Bool :=
  entry.acceptanceDeadline.any (fun deadline => decide (deadline < now)) && !entry.approvedByOwner

/-- A release whose acceptance has lapsed returns the funds to the owner. -/
def refundOwner (vaultId : Nat) (vault : Vault) : Contract Unit := do
  transfer vault.tokenAddress currentContractAddress vault.owner vault.balance
  saveVault vaultId ((vault.withBalance 0).withStatus .cancelled)
  recordStateTransition vaultId .locked .cancelled vault.owner

/-- The first checks of a release: it is the first one, there is something to
release, and some release condition is met. -/
def assertReleaseRequested (vaultId : Nat) (mode : ReleaseTrigger) : Contract Unit := do
  assertNotPaused
  tryRestoreArchivedVault vaultId
  let vault ← loadVault vaultId
  let attempted : Option Bool ← storageGet (.releaseAttempted vaultId)
  require (attempted.isSome = false ∧ vault.status = .locked) .alreadyReleased
  require (vault.balance ≠ 0) .emptyVault
  let conditions ← getReleaseConditions vaultId
  require ((← anyConditionMet vaultId mode conditions) = true) .conditionsNotApproved

/-- The second round of checks, which reads the vault again. -/
def assertReleasable (vaultId : Nat) : Contract Vault := do
  assertNotPaused
  tryRestoreArchivedVault vaultId
  let vault ← loadVault vaultId
  require (vault.status = .locked) .alreadyReleased
  require ((← isExpired vaultId) = true) .notExpired
  assertGracePeriodOver vaultId vault
  require (vault.balance ≠ 0) .emptyVault
  assertNotVetoed vaultId
  assertHeirsReady vaultId vault
  return vault

def triggerReleaseInternal (vaultId : Nat) (mode : ReleaseTrigger) : Contract Unit := do
  assertReleaseRequested vaultId mode
  let vault ← assertReleasable vaultId
  let acceptance : Option ConditionalAcceptanceEntry ←
    storageGet (.conditionalAcceptance vaultId)
  let now ← timestamp
  if acceptance.any (·.lapsed now) = true then
    refundOwner vaultId vault
  else
    releaseToHeirs vaultId vault mode

def triggerRelease (vaultId : Nat) : Contract Unit :=
  triggerReleaseInternal vaultId .expiry

def triggerReleaseManual (vaultId : Nat) : Contract Unit :=
  triggerReleaseInternal vaultId .manual

def panicRelease (vaultId : Nat) (caller : Address) : Contract Unit := do
  requireAuth caller
  let vault ← loadVault vaultId
  require (caller = vault.owner) .notOwner
  triggerReleaseInternal vaultId .manual

/-! ## Other ways to pay heirs -/

def partialRelease (vaultId : Nat) (amount : Int) : Contract Unit := do
  assertNotPaused
  require (0 < amount) .invalidAmount
  let vault ← loadVault vaultId
  requireAuth vault.owner
  require (vault.status = .locked) .alreadyReleased
  require ((← isExpired vaultId) = false) .vaultExpired
  require (amount ≤ vault.balance) .insufficientBalance
  payHeirs vault amount
  let newBalance ← i128 (vault.balance - amount)
  saveVault vaultId (vault.withBalance newBalance)

/-- Pays the whole vault to `claim`. The proof has to hash to the commitment; it
is not compared with `claim`. -/
def revealBeneficiary (vaultId : Nat) (proof : Bytes) (claim : Address) : Contract Unit := do
  let entry : BeneficiaryCommitment ←
    fromSome (← storageGet (.beneficiaryCommitment vaultId)) (.error .commitmentNotFound)
  let revealed : Option Address ← storageGet (.revealedBeneficiary vaultId)
  require (revealed.isSome = false) .beneficiaryAlreadyRevealed
  let vault ← loadVault vaultId
  require (vault.status = .locked) .beneficiaryAlreadyRevealed
  require ((← isExpired vaultId) = true) .notExpired
  require (vault.balance ≠ 0) .emptyVault
  let proofHash ← ask (·.sha256 proof)
  require (proofHash = entry.commitment) .invalidZkProof
  transfer vault.tokenAddress currentContractAddress claim vault.balance
  saveVault vaultId ((vault.withBalance 0).withStatus .released)
  storageSet (.revealedBeneficiary vaultId) claim
  recordStateTransition vaultId .locked .released claim

/-- The entry points that release a vault. -/
inductive ReleaseCall
  | triggerRelease (vaultId : Nat)
  | triggerReleaseManual (vaultId : Nat)
  | panicRelease (vaultId : Nat) (caller : Address)
  | partialRelease (vaultId : Nat) (amount : Int)
  | revealBeneficiary (vaultId : Nat) (proof : Bytes) (claim : Address)

def execRelease : ReleaseCall → Contract Unit
  | .triggerRelease v => triggerRelease v
  | .triggerReleaseManual v => triggerReleaseManual v
  | .panicRelease v c => panicRelease v c
  | .partialRelease v x => partialRelease v x
  | .revealBeneficiary v p a => revealBeneficiary v p a

/-! ## What a release does -/

section Specs

variable {e : Env} {s : State} {id : Nat} {v : Vault} {mode : ReleaseTrigger}

theorem readOnly_getReleaseConditions : Tx.ReadOnly (getReleaseConditions id) :=
  fun _ _ => by simp [getReleaseConditions]

@[simp ↓] theorem wp_getReleaseConditions {Q : List ReleaseCondition → State → Prop} :
    wp (getReleaseConditions id) Q e s ↔
      ∀ l, getReleaseConditions id e s = .ok (l, s) → Q l s :=
  readOnly_getReleaseConditions.wp_iff

theorem readOnly_conditionMet {c : ReleaseCondition} : Tx.ReadOnly (conditionMet id mode c) := by
  intro e s
  cases c <;> simp [conditionMet, oracleQuery]

theorem readOnly_anyConditionMet {l : List ReleaseCondition} :
    Tx.ReadOnly (anyConditionMet id mode l) := by
  intro e s
  refine Tx.wp_foldEach (I := fun _ t => t = s) (fun c _ met t ht => ?_) rfl
  subst ht
  simp only [Tx.wp_bind, Tx.wp_pure]
  exact readOnly_conditionMet e t

@[simp ↓] theorem wp_anyConditionMet {l : List ReleaseCondition} {Q : Bool → State → Prop} :
    wp (anyConditionMet id mode l) Q e s ↔
      ∀ b, anyConditionMet id mode l e s = .ok (b, s) → Q b s :=
  readOnly_anyConditionMet.wp_iff

theorem readOnly_assertGracePeriodOver : Tx.ReadOnly (assertGracePeriodOver id v) :=
  fun _ _ => by simp [assertGracePeriodOver, expiryTime]

@[simp ↓] theorem wp_assertGracePeriodOver {Q : Unit → State → Prop} :
    wp (assertGracePeriodOver id v) Q e s ↔
      ∀ u, assertGracePeriodOver id v e s = .ok (u, s) → Q u s :=
  readOnly_assertGracePeriodOver.wp_iff

@[simp ↓] theorem wp_assertNotVetoed {Q : Unit → State → Prop} :
    wp (assertNotVetoed id) Q e s ↔ ∀ u, assertNotVetoed id e s = .ok (u, s) → Q u s :=
  Tx.ReadOnly.wp_iff fun _ _ => by simp [assertNotVetoed]

@[simp ↓] theorem wp_assertHeirsReady {Q : Unit → State → Prop} :
    wp (assertHeirsReady id v) Q e s ↔ ∀ u, assertHeirsReady id v e s = .ok (u, s) → Q u s :=
  Tx.ReadOnly.wp_iff fun _ _ => by
    simp [assertHeirsReady, getBeneficiaryStatus, checkConditionalAcceptanceThreshold,
      assertProofOfLife, assertVotesPassed]

@[simp ↓] theorem wp_hasVesting {Q : Bool → State → Prop} :
    wp (hasVesting id v) Q e s ↔ ∀ b, hasVesting id v e s = .ok (b, s) → Q b s :=
  Tx.ReadOnly.wp_iff fun _ _ => by simp [hasVesting]

/-- `t` is `s` but for the archive snapshot of the vault. -/
structure Cleared (id : Nat) (s t : State) : Prop where
  get : ∀ k, k ≠ .archivedVault id → t.get k = s.get k
  ledger : t.ledger = s.ledger

namespace Cleared

variable {t u : State}

theorem refl : Cleared id s s := ⟨fun _ _ => rfl, rfl⟩

theorem trans (h : Cleared id s t) (h' : Cleared id t u) : Cleared id s u :=
  ⟨fun k hk => (h'.get k hk).trans (h.get k hk), h'.ledger.trans h.ledger⟩

theorem vault (h : Cleared id s t) (i : Nat) : t.vault i = s.vault i := h.get (.vault i) (by simp)

theorem frame (h : Cleared id s t) : Frame ⟨[id], [], [.registry]⟩ s t where
  keys := fun k hk => h.get k (by rintro rfl; simp [Footprint.Covers] at hk)
  kept := fun i v hv => ⟨v, (h.vault i).trans hv, .refl⟩
  created := .inr fun i hi => (h.vault i).trans hi
  funds := .inr h.ledger

end Cleared

theorem tryRestoreArchivedVault_spec :
    wp (tryRestoreArchivedVault id) (fun _ t => Cleared id s t) e s := by
  have herase : Cleared id s (s.erase (.archivedVault id)) :=
    ⟨fun k hk => State.get_erase_of_ne hk, rfl⟩
  simp [tryRestoreArchivedVault, herase, Cleared.refl]

theorem tryRestoreArchivedVault_ok : ∃ t, tryRestoreArchivedVault id e s = .ok ((), t) := by
  cases h : tryRestoreArchivedVault id e s with
  | ok p => exact ⟨p.2, rfl⟩
  | error => simp [tryRestoreArchivedVault, tryLoadVault] at h

/-- The first checks of a release change nothing but a stale archive snapshot. -/
theorem assertReleaseRequested_spec :
    wp (assertReleaseRequested id mode)
      (fun _ t => Cleared id s t ∧ s.get (.releaseAttempted id) = none) e s := by
  simp only [assertReleaseRequested, Tx.wp_bind, wp_assertNotPaused]
  intro _
  refine Tx.wp_mono tryRestoreArchivedVault_spec fun _ t ht => ?_
  simp [ht, ht.get]
  exact fun _ _ hattempted _ _ _ _ _ => hattempted

/-- So do the second ones. -/
theorem assertReleasable_spec :
    wp (assertReleasable id)
      (fun v t => Cleared id s t ∧ s.vault id = some v ∧ v.status = .locked ∧ v.balance ≠ 0)
      e s := by
  simp only [assertReleasable, Tx.wp_bind, wp_assertNotPaused]
  intro _
  refine Tx.wp_mono tryRestoreArchivedVault_spec fun _ t ht => ?_
  simp [ht, ht.vault]
  exact fun v hv hlocked _ _ _ hbalance _ _ _ _ => ⟨hv, hlocked, hbalance⟩

/-- What a release may write. -/
def releaseFootprint (id : Nat) : Footprint :=
  ⟨[id], [.balance, .status, .heirs, .funds], [.registry, .transitions, .duplicates, .release]⟩

theorem refundOwner_spec {v : Vault} (hv : s.vault id = some v) :
    wp (refundOwner id v)
      (fun _ t => Transacts id v ((v.withBalance 0).withStatus .cancelled)
        [outgoing v.tokenAddress v.owner v.balance] s t ∧
        Frame (releaseFootprint id) s t ∧
        t.get (.releaseAttempted id) = s.get (.releaseAttempted id) ∧ 0 ≤ v.balance) e s := by
  simp [refundOwner]
  intro hpay
  exact ⟨.save hv (fun _ => rfl) rfl (fair_outgoing hpay.1) rfl,
    by simp [releaseFootprint, hv, Vault.agreeOff_iff], hpay.1⟩

/-- Who qualifies is found by reading, and they are among the heirs. -/
theorem qualifyingHeirs_spec {mappings : List (Address × List ReleaseTrigger)} {amount : Int}
    {entries : List BeneficiaryEntry} :
    wp (qualifyingHeirs id mappings amount mode entries)
      (fun l t => t = s ∧ totalBps l ≤ totalBps entries) e s := by
  suffices h : ∀ done, wp (foldEach entries done fun qualifying entry => do
      let takesPart ← qualifies id mappings amount mode entry
      return if takesPart then qualifying ++ [entry] else qualifying)
      (fun l t => t = s ∧ totalBps l ≤ totalBps done + totalBps entries) e s by
    simpa [qualifyingHeirs, totalBps] using h []
  induction entries with
  | nil => simp [foldEach, totalBps]
  | cons entry entries ih =>
      intro done
      simp only [foldEach, Tx.wp_bind]
      have hread : wp (qualifies id mappings amount mode entry) (fun _ t => t = s) e s := by
        simp [qualifies]
      refine Tx.wp_mono hread ?_
      rintro takesPart t rfl
      refine Tx.wp_pure.mpr (Tx.wp_mono (ih _) ?_)
      rintro l u ⟨rfl, hl⟩
      refine ⟨rfl, hl.trans ?_⟩
      cases takesPart with
      | false => simp [totalBps]
      | true => simp [totalBps, Nat.add_assoc]

/-- A split among heirs whose shares add up to `denom` pays the amount out; a
list without any shares can only be paid if it has one entry. -/
theorem wp_payQualifying {token : Address} {amount : Int} {entries : List BeneficiaryEntry}
    {Q : Unit → State → Prop} (hne : entries ≠ []) (hbps : totalBps entries ≤ 10000)
    (h : ∀ log, Fair token log → (0 ≤ amount → flow log = -amount) →
      Q () (s.transferAll log)) :
    wp (payShares token amount ((min (totalBps entries) u32Max : Nat) : Int) 0 entries) Q e s := by
  have hmin : min (totalBps entries) u32Max = totalBps entries :=
    min_eq_left (hbps.trans (by decide))
  rw [hmin]
  by_cases hpos : 0 < totalBps entries
  · refine wp_payShares (h _ fair_paymentLog fun ha => ?_)
    rw [flow_paymentLog, totalPaid_splitPayments ha (by exact_mod_cast hpos) le_rfl hne]
  · -- no shares at all: the first division fails unless the first entry is the last
    obtain ⟨entry, rest, rfl⟩ := List.exists_cons_of_ne_nil hne
    cases rest with
    | nil =>
        refine wp_payShares (h _ fair_paymentLog fun ha => ?_)
        rw [splitPayments_singleton, flow_paymentLog]
        simp [totalPaid, ha]
    | cons next rest =>
        have hzero : ((totalBps (entry :: next :: rest) : Nat) : Int) = 0 := by omega
        simp [payShares, hzero]

theorem distributeReleaseAmount_spec {amount : Int} (hbps : totalBps v.beneficiaries ≤ 10000) :
    wp (distributeReleaseAmount id v amount mode)
      (fun _ t => ∃ log, t = s.transferAll log ∧ Fair v.tokenAddress log ∧
        (0 ≤ amount → flow log = -amount)) e s := by
  simp only [distributeReleaseAmount, Tx.wp_bind, wp_storageGet]
  refine Tx.wp_mono qualifyingHeirs_spec ?_
  rintro entries t ⟨ht, hle⟩
  obtain rfl := ht.symm
  split
  · simp only [wp_transfer]
    exact fun hpay => ⟨_, State.pay_eq_transferAll, fair_outgoing hpay.1, fun _ => flow_outgoing⟩
  · next hne =>
      exact wp_payQualifying hne (hle.trans hbps) fun log hfair hflow => ⟨log, rfl, hfair, hflow⟩

/-- A release pays the amount it takes from the balance, less the burned part. -/
theorem payRelease_spec {amount net : Int} (hbps : totalBps v.beneficiaries ≤ 10000) :
    wp (payRelease id v amount net mode)
      (fun _ t => ∃ log, t = s.transferAll log ∧ Fair v.tokenAddress log ∧
        (0 ≤ net → flow log = -net ∨ flow log = -amount)) e s := by
  unfold payRelease
  split
  · simp only [wp_transfer]
    exact fun hpay => ⟨_, State.pay_eq_transferAll, fair_outgoing hpay.1,
      fun _ => .inr flow_outgoing⟩
  · refine Tx.wp_mono (distributeReleaseAmount_spec hbps) ?_
    rintro _ _ ⟨log, rfl, hfair, hflow⟩
    exact ⟨log, rfl, hfair, fun hnet => .inl (hflow hnet)⟩

/-- The heirs in force when vault `id` is released. -/
def Vault.rotated (v : Vault) (e : Env) (s : State) (id : Nat) : Vault :=
  v.withBeneficiaries
    (rotatedBeneficiaries e.timestamp (s.get (.beneficiaryRotationSchedule id)) v.beneficiaries)

theorem releaseAmount_nonneg (hb : 0 ≤ v.balance) (hl : ∀ l, v.spendingLimit = some l → 0 ≤ l) :
    0 ≤ v.releaseAmount := by
  unfold Vault.releaseAmount
  split
  · next l h => exact le_min hb (hl l h)
  · exact hb

theorem releaseAmount_le : v.releaseAmount ≤ v.balance := by
  unfold Vault.releaseAmount
  split
  · exact min_le_left _ _
  · exact le_rfl

/-- What `releaseFunds` does with the record `v` of a vault stored as `v₀`. -/
theorem releaseFunds_spec {v₀ : Vault} (hv : s.vault id = some v₀)
    (htoken : v.tokenAddress = v₀.tokenAddress) (hbps : totalBps v.beneficiaries ≤ 10000) :
    wp (releaseFunds id v mode)
      (fun _ t => ∃ log, Transacts id v₀ (v.released (v.balance - v.releaseAmount)) log s t ∧
        t.get (.releaseAttempted id) = s.get (.releaseAttempted id) ∧
        (0 ≤ v.releaseAmount → v.burnPercentage ≤ 10000 → -v.releaseAmount ≤ flow log) ∧
        (0 ≤ v.releaseAmount → v.burnPercentage = 0 → flow log = -v.releaseAmount)) e s := by
  simp only [releaseFunds, Tx.wp_bind, wp_i128]
  intro _ _
  refine Tx.wp_mono (payRelease_spec hbps) ?_
  rintro _ _ ⟨log, rfl, hfair, hflow⟩
  have hbound : 0 ≤ v.releaseAmount → v.burnPercentage ≤ 10000 → -v.releaseAmount ≤ flow log := by
    intro ha hpct
    obtain ⟨hburn, hburn'⟩ := percentage_bounds ha hpct
    have := hflow (by omega)
    omega
  have hexact : 0 ≤ v.releaseAmount → v.burnPercentage = 0 → flow log = -v.releaseAmount := by
    intro ha hnone
    simpa [hnone, ha] using hflow
  have hsave : Transacts id v₀ (v.released (v.balance - v.releaseAmount)) log s
      ((s.transferAll log).put (.vault id) (v.released (v.balance - v.releaseAmount))) :=
    .save hv (fun _ => rfl) rfl (htoken ▸ hfair) htoken
  simp only [wp_saveVault, Tx.wp_onlyIf]
  refine fun _ => ⟨fun _ => ?_, fun _ => ⟨log, hsave, by simp, hbound, hexact⟩⟩
  simp only [archiveReleased, Tx.wp_bind, wp_recordStateTransition, wp_storageSet, wp_storageRemove]
  exact ⟨log, by simpa using hsave, by simp, hbound, hexact⟩

/-- The acceptance of vault `id` has lapsed, so a release returns its funds. -/
def State.acceptanceLapsed (s : State) (id now : Nat) : Prop :=
  (s.get (.conditionalAcceptance id)).any (ConditionalAcceptanceEntry.lapsed · now) = true

/-- What the checks of a release find: nothing has changed but the archive snapshot. -/
structure FoundReleasable (id : Nat) (v : Vault) (s t : State) : Prop where
  cleared : Cleared id s t
  before : s.vault id = some v
  vault : t.vault id = some v
  locked : v.status = .locked
  balance : v.balance ≠ 0
  attempted : s.get (.releaseAttempted id) = none

/-- After its checks a release refunds the owner or pays the heirs. -/
theorem triggerReleaseInternal_rule {Q : Unit → State → Prop}
    (hrefund : ∀ v t, FoundReleasable id v s t → t.acceptanceLapsed id e.timestamp →
      wp (refundOwner id v) Q e t)
    (hheirs : ∀ v t, FoundReleasable id v s t → ¬ t.acceptanceLapsed id e.timestamp →
      wp (releaseToHeirs id v mode) Q e t) :
    wp (triggerReleaseInternal id mode) Q e s := by
  simp only [triggerReleaseInternal, Tx.wp_bind]
  refine Tx.wp_mono assertReleaseRequested_spec ?_
  rintro _ t₁ ⟨h₁, hattempted⟩
  refine Tx.wp_mono assertReleasable_spec ?_
  rintro v t ⟨h₂, hv, hlocked, hbalance⟩
  have hfound : FoundReleasable id v s t :=
    ⟨h₁.trans h₂, (h₁.vault id).symm.trans hv, (h₂.vault id).trans hv, hlocked, hbalance,
      hattempted⟩
  simp only [wp_storageGet, wp_timestamp, Tx.wp_ite]
  exact ⟨hrefund v t hfound, hheirs v t hfound⟩

/-- A vesting schedule keeps the funds of vault `id` in place when it is released. -/
def State.vests (s : State) (id : Nat) (v : Vault) : Prop :=
  (s.get (.vestingSchedule id 0)).isSome = true ∨
    (s.get (.milestoneVestingSchedule id)).isSome = true ∨
      ∃ heir ∈ v.beneficiary :: v.beneficiaries.map (·.address),
        (s.get (.beneficiaryVestingSchedule id heir)).isSome = true

/-- A release of vault `id` does not pay the heirs at once. -/
def State.Unpaid (s : State) (e : Env) (id : Nat) : Prop :=
  s.acceptanceLapsed id e.timestamp ∨ ∃ v, s.vault id = some v ∧ s.vests id (v.rotated e s id)

theorem hasVesting_ok {b : Bool} {t : State} (h : hasVesting id v e s = .ok (b, t)) :
    b = true ↔ s.vests id v := by
  simp only [hasVesting, Tx.ok_bind, ok_storageGet, Tx.ok_read, Tx.ok_pure] at h
  obtain ⟨_, _, ⟨rfl, rfl⟩, _, _, ⟨rfl, rfl⟩, _, _, ⟨rfl, rfl⟩, rfl, rfl⟩ := h
  simp [State.vests, or_assoc]

/-- What a release did with the vault: the owner got everything back, a vesting
schedule keeps it, or the heirs were paid. -/
inductive Releases (e : Env) (id : Nat) (v : Vault) (s t : State) : Prop
  | refunded (hunpaid : s.Unpaid e id) (hpaid : 0 ≤ v.balance)
      (h : Transacts id v ((v.withBalance 0).withStatus .cancelled)
        [outgoing v.tokenAddress v.owner v.balance] s t)
      (hattempted : t.get (.releaseAttempted id) = none)
  | vested (hunpaid : s.Unpaid e id)
      (h : Transacts id v ((v.rotated e s id).withStatus .released) [] s t)
      (hattempted : t.get (.releaseAttempted id) = some true)
  | paid (log : Log) (hnot : ¬ s.Unpaid e id)
      (h : Transacts id v ((v.rotated e s id).released (v.balance - v.releaseAmount)) log s t)
      (hattempted : t.get (.releaseAttempted id) = some true)
      (hflow : 0 ≤ v.releaseAmount → v.burnPercentage ≤ 10000 → -v.releaseAmount ≤ flow log)
      (hexact : 0 ≤ v.releaseAmount → v.burnPercentage = 0 → flow log = -v.releaseAmount)

theorem releaseToHeirs_spec (hv : s.vault id = some v)
    (hlapsed : ¬ s.acceptanceLapsed id e.timestamp)
    (hbps : totalBps (v.rotated e s id).beneficiaries ≤ 10000) :
    wp (releaseToHeirs id v mode) (fun _ t => Releases e id v s t) e s := by
  simp only [releaseToHeirs, markReleaseAttempted, Tx.wp_bind, wp_timestamp, wp_applyRotation,
    wp_hasVesting, wp_storageSet, Tx.wp_ite, wp_saveVault, wp_recordStateTransition]
  refine fun vesting hvesting => ⟨fun hvests => ?_, fun hpaid => ?_⟩
  · refine .vested (.inr ⟨v, hv, (hasVesting_ok hvesting).mp hvests⟩) ?_ (by simp)
    exact (Transacts.put_iff (by simp)).mpr (.save hv (by simp) rfl fair_nil rfl)
  · have hmarked : (s.put (.releaseAttempted id) true).vault id = some v := by simpa using hv
    refine Tx.wp_mono (releaseFunds_spec (v := v.rotated e s id) hmarked rfl hbps) ?_
    rintro _ t ⟨log, h, hattempted, hflow, hexact⟩
    have hnot : ¬ s.Unpaid e id := by
      rintro (hlapse | ⟨v', hv', hvests⟩)
      · exact hlapsed hlapse
      · obtain rfl := Option.some.inj (hv.symm.trans hv')
        exact hpaid ((hasVesting_ok hvesting).mpr hvests)
    refine .paid log hnot ?_ (by simpa using hattempted) hflow hexact
    exact h.congr_left (by simp) rfl

/-- The heirs that a release of vault `id` may pay are a well-formed list. -/
def State.RotationSound (s : State) (e : Env) (id : Nat) : Prop :=
  ∀ v, s.vault id = some v → totalBps (v.rotated e s id).beneficiaries ≤ 10000

theorem Cleared.rotated {t : State} (h : Cleared id s t) : v.rotated e t id = v.rotated e s id := by
  rw [Vault.rotated, h.get _ (by simp)]
  rfl

theorem Cleared.unpaid_iff {t : State} (h : Cleared id s t) :
    t.Unpaid e id ↔ s.Unpaid e id := by
  simp only [State.Unpaid, State.acceptanceLapsed, State.vests, h.rotated, h.vault]
  rw [h.get _ (by simp), h.get _ (by simp), h.get _ (by simp)]
  simp only [h.get (.beneficiaryVestingSchedule id _) (by simp)]

theorem Releases.of_cleared {t u : State} (h : Cleared id s t) (hr : Releases e id v t u) :
    Releases e id v s u := by
  cases hr with
  | refunded hunpaid hpaid htx hattempted =>
      exact .refunded (h.unpaid_iff.mp hunpaid) hpaid (htx.congr_left h.vault h.ledger) hattempted
  | vested hunpaid htx hattempted =>
      exact .vested (h.unpaid_iff.mp hunpaid) (h.rotated ▸ htx.congr_left h.vault h.ledger)
        hattempted
  | paid log hnot htx hattempted hflow hexact =>
      exact .paid log (fun hunpaid => hnot (h.unpaid_iff.mpr hunpaid))
        (h.rotated ▸ htx.congr_left h.vault h.ledger) hattempted hflow hexact

/-- A successful release finds the vault locked, not empty and released for the
first time. -/
theorem triggerReleaseInternal_spec (hbps : s.RotationSound e id) :
    wp (triggerReleaseInternal id mode)
      (fun _ t => ∃ v, s.vault id = some v ∧ v.status = .locked ∧ v.balance ≠ 0 ∧
        s.get (.releaseAttempted id) = none ∧ Releases e id v s t) e s := by
  refine triggerReleaseInternal_rule (fun v t hfound hlapsed => ?_) fun v t hfound hlapsed => ?_
  all_goals obtain ⟨hcleared, hvs, hvt, hlocked, hbalance, hattempted⟩ := hfound
  · refine Tx.wp_mono (refundOwner_spec hvt) ?_
    rintro _ u ⟨htx, -, hatt, hpaid⟩
    refine ⟨v, hvs, hlocked, hbalance, hattempted,
      .of_cleared hcleared (.refunded (.inl hlapsed) hpaid htx ?_)⟩
    rw [hatt, hcleared.get _ (by simp), hattempted]
  · refine Tx.wp_mono (releaseToHeirs_spec hvt hlapsed (hcleared.rotated ▸ hbps v hvs)) ?_
    exact fun _ u hr => ⟨v, hvs, hlocked, hbalance, hattempted, .of_cleared hcleared hr⟩

/-- A partial release pays the heirs out of the balance. -/
theorem partialRelease_spec {amount : Int} :
    wp (partialRelease id amount)
      (fun _ t => ∃ v, Transacts id v (v.withBalance (v.balance - amount)) (v.heirsLog amount) s t ∧
        0 < amount ∧ amount ≤ v.balance) e s := by
  simp only [partialRelease, Tx.wp_bind, wp_assertNotPaused, wp_require, wp_loadVault,
    wp_requireAuth, wp_isExpired]
  intro _ hpos v hv _ _ _ _ _ hle
  refine wp_payHeirs fun hfair => ?_
  simp only [wp_i128, wp_saveVault]
  exact fun _ => ⟨v, .save hv (fun _ => rfl) rfl hfair rfl, hpos, hle⟩

theorem revealBeneficiary_spec {proof : Bytes} {claim : Address} :
    wp (revealBeneficiary id proof claim)
      (fun _ t => ∃ v, Transacts id v ((v.withBalance 0).withStatus .released)
        [outgoing v.tokenAddress claim v.balance] s t ∧ v.status = .locked ∧ 0 ≤ v.balance) e s := by
  simp [revealBeneficiary]
  intro _ _ _ v hv hlocked _ _ _ hpay
  exact ⟨v, .save hv (fun _ => rfl) rfl (fair_outgoing hpay.1) rfl, hlocked, hpay.1⟩

end Specs

/-! ## Frames -/

/-- What a call that releases a vault may write. -/
def ReleaseCall.footprint : ReleaseCall → Footprint
  | .triggerRelease v | .triggerReleaseManual v | .panicRelease v _ => releaseFootprint v
  | .partialRelease v _ => ⟨[v], [.balance, .funds], []⟩
  | .revealBeneficiary v _ _ => ⟨[v], [.balance, .status, .funds], [.transitions, .release]⟩

section Frames

variable {e : Env} {s : State} {id : Nat} {v : Vault} {mode : ReleaseTrigger}

/-- Paying a release only moves funds. -/
theorem payRelease_transfers {amount net : Int} :
    wp (payRelease id v amount net mode) (fun _ t => ∃ log, t = s.transferAll log) e s := by
  unfold payRelease
  split
  · simp only [wp_transfer]
    exact fun _ => ⟨_, State.pay_eq_transferAll⟩
  · simp only [distributeReleaseAmount, Tx.wp_bind, wp_storageGet]
    refine Tx.wp_mono qualifyingHeirs_spec ?_
    rintro entries t ⟨ht, -⟩
    obtain rfl := ht.symm
    split
    · simp only [wp_transfer]
      exact fun _ => ⟨_, State.pay_eq_transferAll⟩
    · exact wp_payShares ⟨_, rfl⟩

theorem agreeOff_released {l : List BeneficiaryEntry} {x : Int} (hlocked : v.status = .locked) :
    v.AgreeOff [.balance, .status, .heirs, .funds] ((v.withBeneficiaries l).released x) := by
  by_cases hx : x = 0 <;> simp [Vault.agreeOff_iff, Vault.released, hlocked, hx]

theorem releaseToHeirs_frame (hv : s.vault id = some v) (hlocked : v.status = .locked) :
    wp (releaseToHeirs id v mode) (fun _ t => Frame (releaseFootprint id) s t) e s := by
  simp only [releaseToHeirs, releaseFunds, markReleaseAttempted, Tx.wp_bind, wp_timestamp,
    wp_applyRotation, wp_hasVesting, wp_storageSet, Tx.wp_ite, wp_saveVault,
    wp_recordStateTransition, wp_i128]
  refine fun _ _ => ⟨fun _ => ?_, fun _ _ _ => ?_⟩
  · simp [releaseFootprint, hv, hlocked, Vault.agreeOff_iff]
  · refine Tx.wp_mono payRelease_transfers ?_
    rintro _ _ ⟨log, rfl⟩
    simp [releaseFootprint, archiveReleased, hv, agreeOff_released hlocked]

theorem triggerReleaseInternal_frame :
    wp (triggerReleaseInternal id mode) (fun _ t => Frame (releaseFootprint id) s t) e s := by
  have hcleared : ∀ {v t}, FoundReleasable id v s t → Frame (releaseFootprint id) s t := fun h =>
    h.cleared.frame.mono (by simp [releaseFootprint]) (by simp) (by simp [releaseFootprint])
  refine triggerReleaseInternal_rule (fun v t h _ => ?_) fun v t h _ => ?_
  · exact Tx.wp_mono (refundOwner_spec h.vault) fun _ u hu => (hcleared h).trans hu.2.1
  · exact Tx.wp_mono (releaseToHeirs_frame h.vault h.locked) fun _ u hu => (hcleared h).trans hu

theorem partialRelease_frame {amount : Int} :
    wp (partialRelease id amount) (fun _ t => Frame ⟨[id], [.balance, .funds], []⟩ s t) e s := by
  simp only [partialRelease, Tx.wp_bind, wp_assertNotPaused, wp_require, wp_loadVault,
    wp_requireAuth, wp_isExpired]
  intro _ _ v hv _ _ _ _ _ _
  refine wp_payHeirs fun _ => ?_
  simp [hv, Vault.agreeOff_iff]

theorem execRelease_frame (c : ReleaseCall) :
    wp (execRelease c) (fun _ t => Frame c.footprint s t) e s := by
  cases c with
  | triggerRelease => exact triggerReleaseInternal_frame
  | triggerReleaseManual => exact triggerReleaseInternal_frame
  | panicRelease =>
      simp only [execRelease, panicRelease, Tx.wp_bind, wp_requireAuth, wp_loadVault, wp_require]
      exact fun _ _ _ _ => triggerReleaseInternal_frame
  | partialRelease => exact partialRelease_frame
  | revealBeneficiary =>
      simp [execRelease, ReleaseCall.footprint, revealBeneficiary]
      intros
      simp [*, Vault.agreeOff_iff]

end Frames

/-! ## What a release does to the status -/

/-- The changes of the status of vault `id` on record. -/
def State.transitionLog (s : State) (id : Nat) : List StateTransitionEntry :=
  (s.get (.stateTransitionLog id)).getD []

/-- A vault that was locked has the given status now, and the log says so. -/
def StatusLogged (id : Nat) (status : ReleaseStatus) (s t : State) : Prop :=
  (status = .locked ∧ t.transitionLog id = s.transitionLog id) ∨
    (status ≠ .locked ∧ ∃ actor now,
      t.transitionLog id = s.transitionLog id ++ [⟨.locked, status, actor, now⟩])

/-- A release finds vault `id` locked and leaves it locked, released or, if the acceptance
has lapsed, cancelled. -/
structure ReleasesStatus (e : Env) (id : Nat) (s t : State) (v w : Vault) : Prop where
  before : s.vault id = some v
  locked : v.status = .locked
  after : t.vault id = some w
  owner : w.owner = v.owner
  beneficiary : w.beneficiary = v.beneficiary
  cancelled : w.status = .cancelled ↔ s.acceptanceLapsed id e.timestamp
  empty : w.status = .cancelled → w.balance = 0
  logged : StatusLogged id w.status s t
  unfrozen : w.status ≠ .emergencyFrozen

section Status

variable {e : Env} {s t : State} {id : Nat} {v : Vault} {mode : ReleaseTrigger}

theorem Cleared.transitionLog (h : Cleared id s t) : t.transitionLog id = s.transitionLog id := by
  rw [State.transitionLog, h.get _ (by simp), State.transitionLog]

theorem Cleared.acceptanceLapsed {now : Nat} (h : Cleared id s t) :
    t.acceptanceLapsed id now ↔ s.acceptanceLapsed id now := by
  rw [State.acceptanceLapsed, h.get _ (by simp), State.acceptanceLapsed]

theorem refundOwner_status (hv : s.vault id = some v) (hlocked : v.status = .locked)
    (hlapsed : s.acceptanceLapsed id e.timestamp) :
    wp (refundOwner id v) (fun _ t => ∃ w, ReleasesStatus e id s t v w) e s := by
  simp only [refundOwner, Tx.wp_bind, wp_transfer, wp_saveVault, wp_recordStateTransition]
  refine fun _ => ⟨(v.withBalance 0).withStatus .cancelled, hv, hlocked, by simp, rfl, rfl,
    by simpa using hlapsed, fun _ => rfl, .inr ⟨by simp, v.owner, e.timestamp, ?_⟩, by simp⟩
  simp [State.transitionLog]

theorem releaseToHeirs_status (hv : s.vault id = some v) (hlocked : v.status = .locked)
    (hlapsed : ¬ s.acceptanceLapsed id e.timestamp) :
    wp (releaseToHeirs id v mode) (fun _ t => ∃ w, ReleasesStatus e id s t v w) e s := by
  simp only [releaseToHeirs, releaseFunds, markReleaseAttempted, Tx.wp_bind, wp_timestamp,
    wp_applyRotation, wp_hasVesting, wp_storageSet, Tx.wp_ite, wp_saveVault,
    wp_recordStateTransition, wp_i128]
  refine fun vesting _ => ⟨fun _ => ?_, fun _ _ _ => ?_⟩
  · refine ⟨(v.rotated e s id).withStatus .released, hv, hlocked, by simp [Vault.rotated], rfl, rfl,
      by simpa using hlapsed, by simp, .inr ⟨by simp, v.owner, e.timestamp, ?_⟩, by simp⟩
    simp [State.transitionLog]
  · refine Tx.wp_mono payRelease_transfers ?_
    rintro _ _ ⟨log, rfl⟩
    simp only [Tx.wp_onlyIf, archiveReleased, Tx.wp_bind, wp_recordStateTransition, wp_storageSet,
      wp_storageRemove]
    let rest := (v.rotated e s id).balance - (v.rotated e s id).releaseAmount
    refine fun _ => ⟨fun hzero => ?_, fun hrest => ?_⟩
    · have hstatus : ((v.rotated e s id).released rest).status = .released := if_pos hzero
      refine ⟨(v.rotated e s id).released rest, hv, hlocked, by simp [Vault.rotated, rest], rfl, rfl,
        by simpa [hstatus] using hlapsed, by simp [hstatus],
        .inr ⟨by simp [hstatus], v.owner, e.timestamp, ?_⟩, by simp [hstatus]⟩
      rw [hstatus]
      simp [State.transitionLog, Vault.released]
    · have hstatus : ((v.rotated e s id).released rest).status = .locked :=
        (if_neg hrest).trans hlocked
      refine ⟨(v.rotated e s id).released rest, hv, hlocked, by simp [Vault.rotated, rest], rfl, rfl,
        by simpa [hstatus] using hlapsed, by simp [hstatus], .inl ⟨hstatus, ?_⟩, by simp [hstatus]⟩
      simp [State.transitionLog]

theorem triggerReleaseInternal_status :
    wp (triggerReleaseInternal id mode) (fun _ t => ∃ v w, ReleasesStatus e id s t v w) e s := by
  have hdone : ∀ {v t u w}, FoundReleasable id v s t → ReleasesStatus e id t u v w →
      ∃ v w, ReleasesStatus e id s u v w := by
    rintro v t u w hfound ⟨_, _, hafter, howner, hheir, hcancelled, hempty, hlogged, hunfrozen⟩
    refine ⟨v, w, hfound.before, hfound.locked, hafter, howner, hheir,
      hcancelled.trans hfound.cleared.acceptanceLapsed, hempty, ?_, hunfrozen⟩
    rwa [StatusLogged, hfound.cleared.transitionLog] at hlogged
  refine triggerReleaseInternal_rule (fun v t hfound hlapsed => ?_) fun v t hfound hlapsed => ?_
  · refine Tx.wp_mono (refundOwner_status hfound.vault hfound.locked hlapsed) ?_
    rintro _ _ ⟨_, h⟩
    exact hdone hfound h
  · refine Tx.wp_mono (releaseToHeirs_status hfound.vault hfound.locked hlapsed) ?_
    rintro _ _ ⟨_, h⟩
    exact hdone hfound h

/-- The three calls that release a vault. -/
theorem execRelease_internal {c : ReleaseCall} {t : State}
    (hc : c.footprint = releaseFootprint id) (h : execRelease c e s = .ok ((), t)) :
    ∃ mode, triggerReleaseInternal id mode e s = .ok ((), t) := by
  cases c with
  | triggerRelease i =>
      obtain rfl : i = id := by simpa [ReleaseCall.footprint, releaseFootprint] using hc
      exact ⟨_, h⟩
  | triggerReleaseManual i =>
      obtain rfl : i = id := by simpa [ReleaseCall.footprint, releaseFootprint] using hc
      exact ⟨_, h⟩
  | panicRelease i a =>
      obtain rfl : i = id := by simpa [ReleaseCall.footprint, releaseFootprint] using hc
      simp only [execRelease, panicRelease, Tx.ok_bind, ok_requireAuth, ok_loadVault,
        ok_require] at h
      obtain ⟨_, _, ⟨_, rfl⟩, _, _, ⟨_, rfl⟩, _, _, ⟨_, rfl⟩, hrun⟩ := h
      exact ⟨_, hrun⟩
  | partialRelease => simp [ReleaseCall.footprint, releaseFootprint] at hc
  | revealBeneficiary => simp [ReleaseCall.footprint, releaseFootprint] at hc

theorem execRelease_status {c : ReleaseCall} (hc : c.footprint = releaseFootprint id) :
    wp (execRelease c) (fun _ t => ∃ v w, ReleasesStatus e id s t v w) e s := by
  intro _ t hexec
  obtain ⟨mode, hrun⟩ := execRelease_internal hc hexec
  exact triggerReleaseInternal_status _ _ hrun

end Status

/-! ## What a payout fails with -/

section Errors

variable {e : Env} {s : State} {id : Nat} {v : Vault} {mode : ReleaseTrigger} {failure : Failure}
  {token dest : Address} {x amount net denom distributed : Int} {entries : List BeneficiaryEntry}

/-! A payout either goes through or traps. -/

theorem avoids_transfer {source : Address} (hne : failure ≠ .trap) :
    Tx.Avoids failure (transfer token source dest x) :=
  fun _ _ h => hne (transfer_trap h)

theorem avoids_i128 (hne : failure ≠ .trap) : Tx.Avoids failure (i128 x) :=
  fun _ _ h => hne (err_i128.mp h).2.symm

theorem avoids_divI (hne : failure ≠ .trap) : Tx.Avoids failure (divI x denom) :=
  fun _ _ h => hne (by simp [divI] at h; exact h.2.symm)

theorem avoids_payShare (hne : failure ≠ .trap) : Tx.Avoids failure (payShare token dest x) :=
  fun e s h => avoids_transfer hne e s (Tx.err_onlyIf.mp h).2

theorem avoids_payShares (hne : failure ≠ .trap) :
    Tx.Avoids failure (payShares token amount denom distributed entries) := by
  induction entries generalizing distributed with
  | nil => exact fun _ _ => by simp [payShares]
  | cons entry rest ih =>
      cases rest with
      | nil =>
          refine (avoids_i128 hne).bind fun share => (avoids_payShare hne).bind fun _ => ?_
          exact (avoids_i128 hne).bind fun _ _ _ => by simp
      | cons next rest =>
          refine (avoids_i128 hne).bind fun product => (avoids_divI hne).bind fun share => ?_
          exact (avoids_payShare hne).bind fun _ => (avoids_i128 hne).bind fun _ => ih

theorem avoids_refundOwner (hne : failure ≠ .trap) : Tx.Avoids failure (refundOwner id v) :=
  (avoids_transfer hne).bind fun _ _ _ => by simp [saveVault, recordStateTransition]

theorem avoids_qualifyingHeirs {mappings : List (Address × List ReleaseTrigger)}
    (hne : failure ≠ .trap) :
    Tx.Avoids failure (qualifyingHeirs id mappings amount mode entries) := by
  have hqualifies : ∀ entry, Tx.Avoids failure (qualifies id mappings amount mode entry) :=
    fun entry e s => by simp [qualifies, hne.symm]
  exact Tx.Avoids.foldEach fun _ entry => (hqualifies entry).bind fun _ _ _ => by simp

theorem avoids_payRelease (hne : failure ≠ .trap) :
    Tx.Avoids failure (payRelease id v amount net mode) := by
  intro e s h
  unfold payRelease at h
  split at h
  · exact avoids_transfer hne _ _ h
  · simp only [distributeReleaseAmount, Tx.err_bind, err_storageGet,
      avoids_qualifyingHeirs hne _ _, Tx.err_ite, avoids_transfer hne _ _, and_false,
      avoids_payShares hne _ _, or_false, exists_false] at h

theorem avoids_releaseToHeirs (hne : failure ≠ .trap) :
    Tx.Avoids failure (releaseToHeirs id v mode) := by
  intro e s h
  simp [releaseToHeirs, applyRotation, hasVesting, markReleaseAttempted, saveVault,
    recordStateTransition, releaseFunds, archiveReleased, avoids_payRelease hne _ _, hne.symm] at h

end Errors

end Heirloom
