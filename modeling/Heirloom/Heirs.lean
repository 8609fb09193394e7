import Heirloom.Frame

/-!
# Heirs

The beneficiary list and what heirs and owner agree on before a release: the
split, its scheduled rotation, thresholds and triggers, acceptance, proof of
life, votes and the hidden beneficiary.
-/

namespace Heirloom

open Transaction

/-! ## The split -/

def setBeneficiaries (vaultId : Nat) (caller : Address)
    (beneficiaries : List BeneficiaryEntry) : Contract Unit := do
  requireAuth caller
  require (beneficiaries ≠ []) .invalidBps
  let vault ← loadLockedByOwner vaultId caller
  validateSplit vault.owner beneficiaries
  saveVault vaultId (vault.withBeneficiaries beneficiaries)

def scheduleBeneficiaryRotation (vaultId : Nat) (caller : Address) (effectiveTimestamp : Nat)
    (newBeneficiaries : List BeneficiaryEntry) : Contract Unit := do
  let vault ← loadLockedByOwner vaultId caller
  require (newBeneficiaries ≠ []) .invalidBps
  validateSplit vault.owner newBeneficiaries
  let schedule : List BeneficiaryRotationEntry :=
    (← storageGet (.beneficiaryRotationSchedule vaultId)).getD []
  storageSet (.beneficiaryRotationSchedule vaultId)
    (schedule ++ [⟨effectiveTimestamp, newBeneficiaries⟩])

def addBeneficiary (vaultId : Nat) (caller address : Address) (percentage : Nat) :
    Contract Unit := do
  let vault ← loadLockedByOwner vaultId caller
  require (address ≠ vault.owner) .invalidBeneficiary
  require (∀ entry ∈ vault.beneficiaries, entry.address ≠ address) .invalidBeneficiary
  let currentTotal ← u32 (totalBps vault.beneficiaries)
  let total ← u32 (currentTotal + percentage)
  require (total ≤ 10000) .invalidBps
  saveVault vaultId
    (vault.withBeneficiaries (vault.beneficiaries ++ [⟨address, percentage, 0⟩]))

def removeBeneficiary (vaultId : Nat) (caller address : Address) : Contract Unit := do
  let vault ← loadLockedByOwner vaultId caller
  require (∃ entry ∈ vault.beneficiaries, entry.address = address) .invalidBeneficiary
  saveVault vaultId
    (vault.withBeneficiaries (vault.beneficiaries.filter (·.address ≠ address)))

def setBenMinThreshold (vaultId : Nat) (caller beneficiaryAddress : Address)
    (minimumThreshold : Int) : Contract Unit := do
  let vault ← loadLockedByOwner vaultId caller
  require (0 ≤ minimumThreshold) .invalidAmount
  require (∃ entry ∈ vault.beneficiaries, entry.address = beneficiaryAddress)
    .invalidBeneficiary
  let updated := vault.beneficiaries.map fun entry =>
    if entry.address = beneficiaryAddress then
      { entry with minimumThreshold := minimumThreshold }
    else entry
  saveVault vaultId (vault.withBeneficiaries updated)

def markBeneficiaryReleased (vaultId : Nat) (caller beneficiary : Address) :
    Contract Unit := do
  requireAuth caller
  assertNotPaused
  let vault ← loadVault vaultId
  require (caller = vault.owner) .notOwner
  storageSet (.clawbackReleaseTs vaultId beneficiary) (← timestamp)

/-- Takes the share of the first entry of `beneficiary` away. -/
def zeroAllocation (beneficiary : Address) : List BeneficiaryEntry → List BeneficiaryEntry
  | [] => []
  | entry :: entries =>
      if entry.address = beneficiary then
        { entry with bps := 0 } :: entries
      else
        entry :: zeroAllocation beneficiary entries

def clawbackPostRelease (vaultId : Nat) (caller beneficiary : Address) : Contract Unit := do
  requireAuth caller
  assertNotPaused
  let vault ← loadVault vaultId
  require (caller = vault.owner) .notOwner
  let releaseTs : Nat ← fromSome (← storageGet (.clawbackReleaseTs vaultId beneficiary))
    (.error .notReleased)
  let graceEnd ← u64 (releaseTs + gracePeriodSeconds)
  require ((← timestamp) ≤ graceEnd) .gracePeriodExpired
  storageRemove (.clawbackReleaseTs vaultId beneficiary)
  saveVault vaultId
    (vault.withBeneficiaries (zeroAllocation beneficiary vault.beneficiaries))

/-- The position of the last entry of `address`. -/
def lastIndex? (address : Address) (entries : List BeneficiaryEntry) : Option Nat :=
  (entries.zipIdx.filter (·.1.address = address)).getLast?.map (·.2)

/-- Exchanges the shares of the entries at `ia` and `ib`. -/
def swapBps (entries : List BeneficiaryEntry) (ia ib : Nat) : List BeneficiaryEntry :=
  match entries[ia]?, entries[ib]? with
  | some entryA, some entryB =>
      (entries.set ia { entryA with bps := entryB.bps }).set ib { entryB with bps := entryA.bps }
  | _, _ => entries

def swapAllocations (vaultId : Nat) (caller a b : Address) : Contract Unit := do
  requireAuth caller
  assertNotPaused
  let vault ← loadVault vaultId
  require (caller = vault.owner) .notOwner
  let ia ← fromSome (lastIndex? a vault.beneficiaries) (.error .invalidBeneficiary)
  let ib ← fromSome (lastIndex? b vault.beneficiaries) (.error .invalidBeneficiary)
  saveVault vaultId (vault.withBeneficiaries (swapBps vault.beneficiaries ia ib))

/-! ## The primary beneficiary -/

def updateBeneficiary (vaultId : Nat) (caller newBeneficiary : Address) : Contract Unit := do
  requireAuth caller
  let vault ← loadVault vaultId
  require (caller = vault.owner) .notOwner
  require (vault.status ≠ .emergencyFrozen) .vaultFrozen
  require (vault.status = .locked) .alreadyReleased
  require (vault.owner ≠ newBeneficiary) .invalidBeneficiary
  let now ← timestamp
  let unlocksAt ← u64 (now + oneDay)
  storageSet (.pendingBeneficiaryUpdate vaultId) ⟨newBeneficiary, now, unlocksAt⟩

/-- Moves a vault from one beneficiary's index to another's. -/
def moveBeneficiaryIndex (vaultId : Nat) (oldBeneficiary newBeneficiary : Address) :
    Contract Unit :=
  onlyIf (oldBeneficiary ≠ newBeneficiary) do
    removeBeneficiaryVaultId oldBeneficiary vaultId
    addBeneficiaryVaultId newBeneficiary vaultId

def applyBeneficiaryUpdate (vaultId : Nat) (caller : Address) : Contract Unit := do
  requireAuth caller
  let vault ← loadVault vaultId
  require (caller = vault.owner) .notOwner
  let pending : PendingBeneficiaryUpdate ←
    fromSome (← storageGet (.pendingBeneficiaryUpdate vaultId)) (.error .noPendingAdmin)
  require (pending.unlocksAt ≤ (← timestamp)) .ownershipTransferTimeLocked
  onlyIf (vault.beneficiary ≠ pending.newBeneficiary)
    (assertBeneficiaryCapacity pending.newBeneficiary)
  saveVault vaultId (vault.withBeneficiary pending.newBeneficiary)
  moveBeneficiaryIndex vaultId vault.beneficiary pending.newBeneficiary
  storageRemove (.pendingBeneficiaryUpdate vaultId)

/-! ## Acceptance -/

def vetoReleaseCondition (vaultId : Nat) (caller : Address) : Contract Unit := do
  requireAuth caller
  let vault ← loadVault vaultId
  require (caller = vault.beneficiary) .notBeneficiary
  require ((← isExpired vaultId) = false) .notExpired
  storageSet (.beneficiaryReleaseConditionVeto vaultId) true

def revokeVetoReleaseCondition (vaultId : Nat) (caller : Address) : Contract Unit := do
  requireAuth caller
  let vault ← loadVault vaultId
  require (caller = vault.beneficiary) .notBeneficiary
  storageRemove (.beneficiaryReleaseConditionVeto vaultId)

def acceptBeneficiaryRole (vaultId : Nat) (caller : Address) : Contract Unit := do
  requireAuth caller
  let vault ← loadVault vaultId
  require (caller = vault.beneficiary) .notOwner
  storageSet (.beneficiaryStatus vaultId) .accepted

/-- What a decline forfeits: the part of the first schedule that is not claimed yet. -/
def forfeitUnvested (vaultId : Nat) (vault : Vault) : Contract Unit := do
  ifSome (← storageGet (.vestingForfeiture vaultId)) fun (config : VestingForfeitureConfig) =>
    onlyIf (config.forfeited = false) do
      ifSome (← storageGet (.vestingSchedule vaultId 0)) fun (schedule : VestingSchedule) => do
        let perInst ← divI schedule.totalAmount schedule.numInstallments
        let claimedAmount ← i128 (perInst * schedule.claimedInstallments)
        let unvested ← i128 (schedule.totalAmount - claimedAmount)
        onlyIf (0 < unvested) do
          transfer vault.tokenAddress currentContractAddress config.forfeitureRecipient unvested
          -- the balance is not compared with the forfeited amount
          let newBalance ← i128 (vault.balance - unvested)
          storageSet (.vestingForfeiture vaultId) { config with forfeited := true }
          saveVault vaultId (vault.withBalance newBalance)

def declineBeneficiaryRole (vaultId : Nat) (caller : Address) : Contract Unit := do
  requireAuth caller
  let vault ← loadVault vaultId
  let isPrimary := decide (caller = vault.beneficiary)
  let isListed := decide (∃ entry ∈ vault.beneficiaries, entry.address = caller)
  require (isPrimary = true ∨ isListed = true) .notBeneficiary
  storageSet (.beneficiaryStatusEntry vaultId caller) .declined
  onlyIf (isPrimary = true ∧ vault.beneficiaries = [])
    (storageSet (.beneficiaryStatus vaultId) .declined)
  forfeitUnvested vaultId vault

def acceptWithConditions (vaultId : Nat) (conditions : String) : Contract Unit := do
  assertNotPaused
  let vault ← loadVault vaultId
  requireAuth vault.beneficiary
  require (conditions ≠ "") .invalidAmount
  storageSet (.conditionalAcceptance vaultId) ⟨conditions, false, none, none⟩

def approveConditionalAcceptance (vaultId : Nat) : Contract Unit := do
  assertNotPaused
  let vault ← loadVault vaultId
  requireAuth vault.owner
  let entry : ConditionalAcceptanceEntry ←
    fromSome (← storageGet (.conditionalAcceptance vaultId)) (.error .invalidBeneficiary)
  storageSet (.conditionalAcceptance vaultId) { entry with approvedByOwner := true }

def setAcceptanceDeadline (vaultId deadlineTimestamp : Nat) : Contract Unit := do
  assertNotPaused
  let vault ← loadVault vaultId
  requireAuth vault.owner
  require (vault.status = .locked) .alreadyReleased
  let entry : ConditionalAcceptanceEntry ←
    fromSome (← storageGet (.conditionalAcceptance vaultId)) (.error .invalidBeneficiary)
  storageSet (.conditionalAcceptance vaultId)
    { entry with acceptanceDeadline := some deadlineTimestamp }

def acceptWithThreshold (vaultId : Nat) (minBalanceThreshold : Int) : Contract Unit := do
  assertNotPaused
  let vault ← loadVault vaultId
  requireAuth vault.beneficiary
  require (0 < minBalanceThreshold) .invalidAmount
  storageSet (.beneficiaryConditionalAcceptance vaultId) ⟨minBalanceThreshold, ← timestamp⟩

/-! ## Conditions of a release -/

def setBeneficiaryReleaseTriggers (vaultId : Nat) (caller beneficiary : Address)
    (triggers : List ReleaseTrigger) : Contract Unit := do
  let vault ← loadLockedByOwner vaultId caller
  require (∃ entry ∈ vault.beneficiaries, entry.address = beneficiary) .invalidBeneficiary
  require (triggers ≠ []) .invalidAmount
  let mappings : List (Address × List ReleaseTrigger) :=
    (← storageGet (.beneficiaryReleaseTriggers vaultId)).getD []
  storageSet (.beneficiaryReleaseTriggers vaultId)
    (mappings.filter (·.1 ≠ beneficiary) ++ [(beneficiary, triggers)])

def setBeneficiaryTierThreshold (vaultId : Nat) (caller beneficiary : Address)
    (tierThreshold : Int) : Contract Unit := do
  let vault ← loadLockedByOwner vaultId caller
  require (∃ entry ∈ vault.beneficiaries, entry.address = beneficiary) .invalidBeneficiary
  require (0 ≤ tierThreshold) .invalidAmount
  storageSet (.beneficiaryTierThreshold vaultId beneficiary) tierThreshold

def setReleaseCondition (vaultId : Nat) (caller : Address) (condition : ReleaseCondition) :
    Contract Unit := do
  let vault ← loadLockedByOwner vaultId caller
  saveVault vaultId { vault with releaseCondition := condition }

def setReleaseConditions (vaultId : Nat) (caller : Address)
    (conditions : List ReleaseCondition) : Contract Unit := do
  let _ ← loadLockedByOwner vaultId caller
  storageSet (.releaseConditions vaultId) conditions

def commitBeneficiary (vaultId : Nat) (caller : Address) (commitment : Bytes32) :
    Contract Unit := do
  let _ ← loadLockedByOwner vaultId caller
  let current : Option BeneficiaryCommitment ← storageGet (.beneficiaryCommitment vaultId)
  require (current.isSome = false) .commitmentAlreadySet
  storageSet (.beneficiaryCommitment vaultId) ⟨commitment, ← timestamp⟩

def submitProofOfLife (vaultId : Nat) (caller : Address) (validityWindow : Nat) :
    Contract Unit := do
  requireAuth caller
  let vault ← loadVault vaultId
  require (caller = vault.beneficiary ∨ ∃ entry ∈ vault.beneficiaries, entry.address = caller)
    .notBeneficiary
  let now ← timestamp
  storageSet (.proofOfLife vaultId)
    ⟨caller, now, saturatingAdd64 now (min validityWindow thirtyDays)⟩

def setReleaseVoteThreshold (vaultId : Nat) (caller : Address) (threshold : Nat) :
    Contract Unit := do
  requireAuth caller
  let vault ← loadVault vaultId
  require (caller = vault.owner) .notOwner
  if threshold = 0 then
    storageRemove (.releaseVoteThreshold vaultId)
  else
    storageSet (.releaseVoteThreshold vaultId) threshold

def castReleaseVote (vaultId : Nat) (caller : Address) (approve : Bool) : Contract Unit := do
  requireAuth caller
  let vault ← loadVault vaultId
  let _threshold : Nat ← fromSome (← storageGet (.releaseVoteThreshold vaultId))
    (.error .votingNotEnabled)
  require (caller = vault.beneficiary ∨ ∃ entry ∈ vault.beneficiaries, entry.address = caller)
    .notBeneficiary
  let votes : List ReleaseVoteEntry := (← storageGet (.releaseVotes vaultId)).getD []
  require (∀ vote ∈ votes, vote.voter ≠ caller) .votingNotEnabled
  storageSet (.releaseVotes vaultId) (votes ++ [⟨caller, approve, ← timestamp⟩])

/-- The last of the chain passes the role of the beneficiary on. The chain starts with the
vault's beneficiary and is stored apart from `beneficiaryDelegate`. -/
def delegateBeneficiaryRole (vaultId : Nat) (delegateAddress : Address) : Contract Unit := do
  assertNotPaused
  let vault ← loadVault vaultId
  let chain : List Address :=
    (← storageGet (.beneficiaryDelegationChain vaultId)).getD [vault.beneficiary]
  let currentDelegate ← fromSome chain.getLast? .trap
  requireAuth currentDelegate
  require (delegateAddress ∉ chain) .invalidBeneficiary
  storageSet (.beneficiaryDelegationChain vaultId) (chain ++ [delegateAddress])

/-- The entry points about heirs. -/
inductive HeirCall
  | setBeneficiaries (vaultId : Nat) (caller : Address) (beneficiaries : List BeneficiaryEntry)
  | scheduleBeneficiaryRotation (vaultId : Nat) (caller : Address) (effectiveTimestamp : Nat)
      (newBeneficiaries : List BeneficiaryEntry)
  | addBeneficiary (vaultId : Nat) (caller address : Address) (percentage : Nat)
  | removeBeneficiary (vaultId : Nat) (caller address : Address)
  | setBenMinThreshold (vaultId : Nat) (caller beneficiaryAddress : Address)
      (minimumThreshold : Int)
  | markBeneficiaryReleased (vaultId : Nat) (caller beneficiary : Address)
  | clawbackPostRelease (vaultId : Nat) (caller beneficiary : Address)
  | swapAllocations (vaultId : Nat) (caller a b : Address)
  | updateBeneficiary (vaultId : Nat) (caller newBeneficiary : Address)
  | applyBeneficiaryUpdate (vaultId : Nat) (caller : Address)
  | vetoReleaseCondition (vaultId : Nat) (caller : Address)
  | revokeVetoReleaseCondition (vaultId : Nat) (caller : Address)
  | acceptBeneficiaryRole (vaultId : Nat) (caller : Address)
  | declineBeneficiaryRole (vaultId : Nat) (caller : Address)
  | acceptWithConditions (vaultId : Nat) (conditions : String)
  | approveConditionalAcceptance (vaultId : Nat)
  | setAcceptanceDeadline (vaultId deadlineTimestamp : Nat)
  | acceptWithThreshold (vaultId : Nat) (minBalanceThreshold : Int)
  | setBeneficiaryReleaseTriggers (vaultId : Nat) (caller beneficiary : Address)
      (triggers : List ReleaseTrigger)
  | setBeneficiaryTierThreshold (vaultId : Nat) (caller beneficiary : Address)
      (tierThreshold : Int)
  | setReleaseCondition (vaultId : Nat) (caller : Address) (condition : ReleaseCondition)
  | setReleaseConditions (vaultId : Nat) (caller : Address) (conditions : List ReleaseCondition)
  | commitBeneficiary (vaultId : Nat) (caller : Address) (commitment : Bytes32)
  | submitProofOfLife (vaultId : Nat) (caller : Address) (validityWindow : Nat)
  | setReleaseVoteThreshold (vaultId : Nat) (caller : Address) (threshold : Nat)
  | castReleaseVote (vaultId : Nat) (caller : Address) (approve : Bool)
  | delegateBeneficiaryRole (vaultId : Nat) (delegateAddress : Address)

def execHeir : HeirCall → Contract Unit
  | .setBeneficiaries v c bs => setBeneficiaries v c bs
  | .scheduleBeneficiaryRotation v c t bs => scheduleBeneficiaryRotation v c t bs
  | .addBeneficiary v c a p => addBeneficiary v c a p
  | .removeBeneficiary v c a => removeBeneficiary v c a
  | .setBenMinThreshold v c a x => setBenMinThreshold v c a x
  | .markBeneficiaryReleased v c b => markBeneficiaryReleased v c b
  | .clawbackPostRelease v c b => clawbackPostRelease v c b
  | .swapAllocations v c a b => swapAllocations v c a b
  | .updateBeneficiary v c b => updateBeneficiary v c b
  | .applyBeneficiaryUpdate v c => applyBeneficiaryUpdate v c
  | .vetoReleaseCondition v c => vetoReleaseCondition v c
  | .revokeVetoReleaseCondition v c => revokeVetoReleaseCondition v c
  | .acceptBeneficiaryRole v c => acceptBeneficiaryRole v c
  | .declineBeneficiaryRole v c => declineBeneficiaryRole v c
  | .acceptWithConditions v c => acceptWithConditions v c
  | .approveConditionalAcceptance v => approveConditionalAcceptance v
  | .setAcceptanceDeadline v t => setAcceptanceDeadline v t
  | .acceptWithThreshold v x => acceptWithThreshold v x
  | .setBeneficiaryReleaseTriggers v c b ts => setBeneficiaryReleaseTriggers v c b ts
  | .setBeneficiaryTierThreshold v c b x => setBeneficiaryTierThreshold v c b x
  | .setReleaseCondition v c r => setReleaseCondition v c r
  | .setReleaseConditions v c rs => setReleaseConditions v c rs
  | .commitBeneficiary v c h => commitBeneficiary v c h
  | .submitProofOfLife v c n => submitProofOfLife v c n
  | .setReleaseVoteThreshold v c n => setReleaseVoteThreshold v c n
  | .castReleaseVote v c b => castReleaseVote v c b
  | .delegateBeneficiaryRole v a => delegateBeneficiaryRole v a

/-! ## Forfeiture -/

/-- What the schedule has not paid out yet, by its own count. -/
def VestingSchedule.unvested (schedule : VestingSchedule) : Int :=
  schedule.totalAmount -
    schedule.totalAmount.tdiv schedule.numInstallments * schedule.claimedInstallments

/-- A decline would forfeit `amount` of vault `id` to `recipient`. -/
def State.Forfeits (s : State) (id : Nat) (recipient : Address) (amount : Int) : Prop :=
  ∃ config schedule, s.get (.vestingForfeiture id) = some config ∧
    s.get (.vestingSchedule id 0) = some schedule ∧ config.forfeited = false ∧
    config.forfeitureRecipient = recipient ∧ schedule.unvested = amount ∧ 0 < amount

section Specs

variable {e : Env} {s : State} {id : Nat} {v : Vault}

/-- A forfeiture is paid whether or not the balance covers it. -/
theorem wp_forfeitUnvested {Q : Unit → State → Prop} (hnone : (∀ a x, ¬ s.Forfeits id a x) → Q () s)
    (hpay : ∀ recipient amount config, s.Forfeits id recipient amount → config.forfeited = true →
      Q () (((s.transferAll [outgoing v.tokenAddress recipient amount]).put
        (.vestingForfeiture id) config).put (.vault id) (v.withBalance (v.balance - amount)))) :
    wp (forfeitUnvested id v) Q e s := by
  simp only [forfeitUnvested, Tx.wp_bind, wp_storageGet, Tx.wp_ifSome, Tx.wp_onlyIf, wp_divI,
    wp_i128, wp_transfer, wp_storageSet, wp_saveVault]
  refine ⟨fun config hconfig => ⟨fun hfresh => ⟨fun schedule hschedule _ _ _ => ⟨?_, ?_⟩, ?_⟩, ?_⟩,
    ?_⟩
  · intro hpos _ _
    exact hpay _ _ _ ⟨config, schedule, hconfig, hschedule, hfresh, rfl, rfl, hpos⟩ rfl
  · refine fun hnot => hnone ?_
    rintro a x ⟨config', schedule', -, hschedule', -, -, rfl, hpos⟩
    obtain rfl := Option.some.inj (hschedule.symm.trans hschedule')
    exact hnot hpos
  · refine fun hno => hnone ?_
    rintro a x ⟨config', schedule', -, hschedule', -⟩
    rw [hno] at hschedule'
    cases hschedule'
  · refine fun hdone => hnone ?_
    rintro a x ⟨config', schedule', hconfig', -, hfresh, -⟩
    obtain rfl := Option.some.inj (hconfig.symm.trans hconfig')
    exact hdone hfresh
  · refine fun hno => hnone ?_
    rintro a x ⟨config', schedule', hconfig', -⟩
    rw [hno] at hconfig'
    cases hconfig'

/-- The invariant rule of a decline: it marks the heir, and may then forfeit. -/
theorem declineBeneficiaryRole_rule {caller : Address} {Q : Unit → State → Prop}
    (h : ∀ v t, s.vault id = some v → Frame ⟨[id], [], [.heirs]⟩ s t →
      (∀ i, t.vault i = s.vault i) → wp (forfeitUnvested id v) Q e t) :
    wp (declineBeneficiaryRole id caller) Q e s := by
  simp [declineBeneficiaryRole]
  intro _ v hv _
  refine ⟨fun _ _ => ?_, fun _ => ?_⟩ <;> exact h v _ hv (by simp) (by simp)

/-- A decline leaves the funds alone or pays the forfeited amount. -/
theorem declineBeneficiaryRole_spec {caller : Address} :
    wp (declineBeneficiaryRole id caller)
      (fun _ t => (t.ledger = s.ledger ∧ ∀ i, t.vault i = s.vault i) ∨
        ∃ v recipient amount, s.Forfeits id recipient amount ∧
          Transacts id v (v.withBalance (v.balance - amount))
            [outgoing v.tokenAddress recipient amount] s t) e s := by
  refine declineBeneficiaryRole_rule fun v t hv hframe ht => ?_
  have hledger : t.ledger = s.ledger := by simpa using hframe.funds
  refine wp_forfeitUnvested (fun _ => .inl ⟨hledger, ht⟩) fun recipient amount config hforfeits _ => ?_
  have hpos : 0 ≤ amount := by
    obtain ⟨_, _, -, -, -, -, -, hpos⟩ := hforfeits
    exact hpos.le
  refine .inr ⟨v, recipient, amount, ?_, .save hv (by simpa using ht) ?_ (fair_outgoing hpos) rfl⟩
  · obtain ⟨c, schedule, hc, hschedule, hrest⟩ := hforfeits
    rw [hframe.get_of_area (by simp)] at hc hschedule
    exact ⟨c, schedule, hc, hschedule, hrest⟩
  · simp [hledger]

theorem declineBeneficiaryRole_frame {caller : Address} :
    wp (declineBeneficiaryRole id caller)
      (fun _ t => Frame ⟨[id], [.balance, .funds], [.heirs, .forfeiture]⟩ s t) e s := by
  refine declineBeneficiaryRole_rule fun v t hv hframe ht => ?_
  have hframe' : Frame ⟨[id], [.balance, .funds], [.heirs, .forfeiture]⟩ s t :=
    hframe.mono (by simp) (by simp) (by simp)
  refine wp_forfeitUnvested (fun _ => hframe') fun recipient amount config _ _ => ?_
  refine Frame.save ?_ (by simp) (by simpa [ht] using hv) (by simp [Vault.agreeOff_iff])
  simpa using hframe'

theorem applyBeneficiaryUpdate_spec {caller : Address} :
    wp (applyBeneficiaryUpdate id caller) (fun _ t => ∃ v p,
      Transacts id v (v.withBeneficiary p.newBeneficiary) [] s t ∧ caller = v.owner ∧
        e.authorized caller = true ∧ s.get (.pendingBeneficiaryUpdate id) = some p ∧
          p.unlocksAt ≤ e.timestamp) e s := by
  simp [applyBeneficiaryUpdate, moveBeneficiaryIndex]
  intro hauth v hv howner p hp hunlocked
  have hdone : ∃ v' p', Transacts id v' (v'.withBeneficiary p'.newBeneficiary) [] s
      (s.put (.vault id) (v.withBeneficiary p.newBeneficiary)) ∧ caller = v'.owner ∧
        e.authorized caller = true ∧ s.get (.pendingBeneficiaryUpdate id) = some p' ∧
          p'.unlocksAt ≤ e.timestamp :=
    ⟨v, p, .save hv (fun _ => rfl) rfl fair_nil rfl, howner, hauth, hp, hunlocked⟩
  exact ⟨fun _ _ _ => ⟨fun _ => hdone, fun _ => hdone⟩, fun _ => ⟨fun _ => hdone, fun _ => hdone⟩⟩

theorem clawbackPostRelease_spec {caller heir : Address} :
    wp (clawbackPostRelease id caller heir) (fun _ t => ∃ v,
      Transacts id v (v.withBeneficiaries (zeroAllocation heir v.beneficiaries)) [] s t) e s := by
  simp [clawbackPostRelease]
  intro _ _ v hv _ _ _ _ _
  exact ⟨v, .save hv (by simp) rfl fair_nil rfl⟩

theorem swapAllocations_spec {caller a b : Address} :
    wp (swapAllocations id caller a b) (fun _ t => ∃ v ia ib,
      Transacts id v (v.withBeneficiaries (swapBps v.beneficiaries ia ib)) [] s t ∧
        lastIndex? a v.beneficiaries = some ia ∧ lastIndex? b v.beneficiaries = some ib) e s := by
  simp [swapAllocations]
  intro _ _ v hv _ ia ha ib hb
  exact ⟨v, ia, ib, .save hv (fun _ => rfl) rfl fair_nil rfl, ha, hb⟩

end Specs

/-! ## Frames -/

/-- What a call about heirs may write. -/
def HeirCall.footprint : HeirCall → Footprint
  | .setBeneficiaries v _ _ | .addBeneficiary v _ _ _ | .removeBeneficiary v _ _
  | .setBenMinThreshold v _ _ _ => ⟨[v], [.heirs], []⟩
  | .clawbackPostRelease v _ _ => ⟨[v], [.allocations], [.heirs]⟩
  | .swapAllocations v _ _ _ => ⟨[v], [.allocations], []⟩
  | .applyBeneficiaryUpdate v _ => ⟨[v], [.beneficiary], [.transfers, .indexes]⟩
  | .updateBeneficiary v _ _ => ⟨[v], [], [.transfers]⟩
  | .delegateBeneficiaryRole v _ => ⟨[v], [], [.delegations]⟩
  | .declineBeneficiaryRole v _ => ⟨[v], [.balance, .funds], [.heirs, .forfeiture]⟩
  | .scheduleBeneficiaryRotation v _ _ _ | .markBeneficiaryReleased v _ _
  | .vetoReleaseCondition v _ | .revokeVetoReleaseCondition v _ | .acceptBeneficiaryRole v _
  | .acceptWithConditions v _ | .approveConditionalAcceptance v | .setAcceptanceDeadline v _
  | .acceptWithThreshold v _ | .setBeneficiaryReleaseTriggers v _ _ _
  | .setBeneficiaryTierThreshold v _ _ _ | .setReleaseCondition v _ _
  | .setReleaseConditions v _ _ | .commitBeneficiary v _ _ | .submitProofOfLife v _ _
  | .setReleaseVoteThreshold v _ _ | .castReleaseVote v _ _ => ⟨[v], [], [.heirs]⟩

theorem execHeir_frame (c : HeirCall) {e : Env} {s : State} :
    wp (execHeir c) (fun _ t => Frame c.footprint s t) e s := by
  cases c with
  | setBeneficiaries =>
      simp [execHeir, HeirCall.footprint, setBeneficiaries]
      intros
      simp [*, Vault.agreeOff_iff]
  | scheduleBeneficiaryRotation =>
      simp [execHeir, HeirCall.footprint, scheduleBeneficiaryRotation]
  | addBeneficiary =>
      simp [execHeir, HeirCall.footprint, addBeneficiary]
      intros
      simp [*, Vault.agreeOff_iff]
  | removeBeneficiary =>
      simp [execHeir, HeirCall.footprint, removeBeneficiary]
      intros
      simp [*, Vault.agreeOff_iff]
  | setBenMinThreshold =>
      simp [execHeir, HeirCall.footprint, setBenMinThreshold]
      intros
      simp [*, Vault.agreeOff_iff]
  | markBeneficiaryReleased => simp [execHeir, HeirCall.footprint, markBeneficiaryReleased]
  | clawbackPostRelease =>
      simp [execHeir, HeirCall.footprint, clawbackPostRelease]
      intros
      simp [*, Vault.agreeOff_iff]
  | swapAllocations =>
      simp [execHeir, HeirCall.footprint, swapAllocations]
      intros
      simp [*, Vault.agreeOff_iff]
  | updateBeneficiary => simp [execHeir, HeirCall.footprint, updateBeneficiary]
  | applyBeneficiaryUpdate =>
      simp [execHeir, HeirCall.footprint, applyBeneficiaryUpdate, moveBeneficiaryIndex]
      intros
      simp [*, Vault.agreeOff_iff]
  | vetoReleaseCondition => simp [execHeir, HeirCall.footprint, vetoReleaseCondition]
  | revokeVetoReleaseCondition => simp [execHeir, HeirCall.footprint, revokeVetoReleaseCondition]
  | acceptBeneficiaryRole => simp [execHeir, HeirCall.footprint, acceptBeneficiaryRole]
  | declineBeneficiaryRole => exact declineBeneficiaryRole_frame
  | acceptWithConditions => simp [execHeir, HeirCall.footprint, acceptWithConditions]
  | approveConditionalAcceptance =>
      simp [execHeir, HeirCall.footprint, approveConditionalAcceptance]
  | setAcceptanceDeadline => simp [execHeir, HeirCall.footprint, setAcceptanceDeadline]
  | acceptWithThreshold => simp [execHeir, HeirCall.footprint, acceptWithThreshold]
  | setBeneficiaryReleaseTriggers =>
      simp [execHeir, HeirCall.footprint, setBeneficiaryReleaseTriggers]
  | setBeneficiaryTierThreshold =>
      simp [execHeir, HeirCall.footprint, setBeneficiaryTierThreshold]
  | setReleaseCondition =>
      simp [execHeir, HeirCall.footprint, setReleaseCondition]
      intros
      simp [*, Vault.agreeOff_iff]
  | setReleaseConditions => simp [execHeir, HeirCall.footprint, setReleaseConditions]
  | commitBeneficiary => simp [execHeir, HeirCall.footprint, commitBeneficiary]
  | submitProofOfLife => simp [execHeir, HeirCall.footprint, submitProofOfLife]
  | setReleaseVoteThreshold => simp [execHeir, HeirCall.footprint, setReleaseVoteThreshold]
  | castReleaseVote => simp [execHeir, HeirCall.footprint, castReleaseVote]
  | delegateBeneficiaryRole => simp [execHeir, HeirCall.footprint, delegateBeneficiaryRole]

end Heirloom
