import Heirloom.Heirs
import Heirloom.Ownership
import Heirloom.Payouts

/-!
# Multi-signature control

The owner can hand the control of a vault to several signers: an operation is
proposed by the owner, approved by signers and then executed by the owner. A
proposal carries a status that is set when it is approved and read when it is
executed; the threshold is compared only in between, by `approveMultisig`.
-/

namespace Heirloom

open Transaction

/-! ## Configuration -/

def configureMultisig (vaultId : Nat) (caller : Address) (signers : List Address)
    (threshold : Nat) : Contract Unit := do
  let vault ← loadLockedByOwner vaultId caller
  let total ← u32 (signers.length + 1)
  require (threshold ≠ 0 ∧ threshold ≤ total) .invalidThreshold
  require (∀ signer ∈ signers, signer ≠ vault.owner) .invalidBeneficiary
  storageSet (.multiSigConfig vaultId) ⟨signers, threshold⟩

def removeMultisig (vaultId : Nat) (caller : Address) : Contract Unit := do
  requireAuth caller
  let vault ← loadVault vaultId
  require (caller = vault.owner) .notOwner
  storageRemove (.multiSigConfig vaultId)

/-- The configuration without a signer, the threshold lowered if it has to be. -/
def MultiSigConfig.without (config : MultiSigConfig) (signer : Address) : MultiSigConfig :=
  let signers := config.signers.filter (· ≠ signer)
  ⟨signers, min config.threshold (signers.length + 1)⟩

/-- The approvals of a proposal other than those of `signer`. -/
def MultiSigProposal.approvalsWithout (proposal : MultiSigProposal) (signer : Address) : Nat :=
  (proposal.approvals.filter (· ≠ signer)).length

/-- Rejects a pending proposal that falls short without the removed signer. -/
def rejectIfShort (vaultId threshold : Nat) (signer : Address) (proposalId : Nat) :
    Contract Unit := do
  ifSome (← storageGet (.multiSigProposal vaultId proposalId)) fun (proposal : MultiSigProposal) =>
    onlyIf (proposal.status = .pending ∧ proposal.approvalsWithout signer < threshold)
      (storageSet (.multiSigProposal vaultId proposalId) { proposal with status := .rejected })

def removeMultisigSigner (vaultId : Nat) (caller signerToRemove : Address) : Contract Unit := do
  requireAuth caller
  let vault ← loadVault vaultId
  require (caller = vault.owner) .notOwner
  let config : MultiSigConfig ←
    fromSome (← storageGet (.multiSigConfig vaultId)) (.error .multiSigRequired)
  require (signerToRemove ∈ config.signers) .notASigner
  let newConfig := config.without signerToRemove
  storageSet (.multiSigConfig vaultId) newConfig
  let proposalCount : Nat := (← storageGet (.multiSigProposalCount vaultId)).getD 0
  forEach (List.range' 1 proposalCount)
    (rejectIfShort vaultId newConfig.threshold signerToRemove)

/-! ## Proposals -/

def loadProposal (vaultId proposalId : Nat) : Contract MultiSigProposal := do
  fromSome (← storageGet (.multiSigProposal vaultId proposalId)) (.error .proposalNotFound)

/-- The configuration, for the owner or a co-signer of the vault. -/
def loadConfigBySigner (vaultId : Nat) (caller : Address) : Contract MultiSigConfig := do
  requireAuth caller
  let config : MultiSigConfig ←
    fromSome (← storageGet (.multiSigConfig vaultId)) (.error .multiSigRequired)
  let vault ← loadVault vaultId
  require (caller = vault.owner ∨ caller ∈ config.signers) .notASigner
  return config

def removeFromOpenProposals (vaultId proposalId : Nat) : Contract Unit := do
  ifSome (← storageGet (.openProposals vaultId)) fun (openProposals : List Nat) =>
    storageSet (.openProposals vaultId) (openProposals.filter (· ≠ proposalId))

def proposeMultisig (vaultId : Nat) (caller : Address) (operation : MultiSigOperation)
    (payload : Bytes) (addressPayload : Option Address) : Contract Nat := do
  let _ ← loadLockedByOwner vaultId caller
  let _config : MultiSigConfig ←
    fromSome (← storageGet (.multiSigConfig vaultId)) (.error .multiSigRequired)
  let count : Nat := (← storageGet (.multiSigProposalCount vaultId)).getD 0
  let proposalId ← u64 (count + 1)
  let now ← timestamp
  let expiresAt ← u64 (now + multisigProposalExpiry)
  -- the owner approves by proposing; the threshold is not compared
  storageSet (.multiSigProposal vaultId proposalId)
    { id := proposalId
      operation := operation
      approvals := [caller]
      status := .pending
      expiresAt := expiresAt
      vaultId := vaultId
      payload := payload
      addressPayload := addressPayload
      createdAt := now }
  storageSet (.multiSigProposalCount vaultId) proposalId
  let openProposals ← storageGet (.openProposals vaultId)
  storageSet (.openProposals vaultId) (openProposals.getD [] ++ [proposalId])
  return proposalId

/-- A proposal after one more approval. -/
def MultiSigProposal.approvedBy (proposal : MultiSigProposal) (signer : Address)
    (threshold : Nat) : MultiSigProposal :=
  let approvals := proposal.approvals ++ [signer]
  { proposal with
    approvals := approvals
    status := if threshold ≤ approvals.length then .approved else proposal.status }

def approveMultisig (vaultId proposalId : Nat) (caller : Address) : Contract Unit := do
  let config ← loadConfigBySigner vaultId caller
  let proposal ← loadProposal vaultId proposalId
  require (proposal.status = .pending) .proposalNotFound
  require ((← timestamp) ≤ proposal.expiresAt) .proposalExpired
  require (caller ∉ proposal.approvals) .invalidAmount
  storageSet (.multiSigProposal vaultId proposalId)
    (proposal.approvedBy caller config.threshold)

def rejectMultisig (vaultId proposalId : Nat) (caller : Address) : Contract Unit := do
  requireAuth caller
  let vault ← loadVault vaultId
  require (caller = vault.owner) .notOwner
  let proposal ← loadProposal vaultId proposalId
  require (proposal.status = .pending) .proposalNotFound
  storageSet (.multiSigProposal vaultId proposalId) { proposal with status := .rejected }
  removeFromOpenProposals vaultId proposalId

def vetoProposal (vaultId proposalId : Nat) (caller : Address) : Contract Unit := do
  let _config ← loadConfigBySigner vaultId caller
  let proposal ← loadProposal vaultId proposalId
  require (proposal.status ≠ .executed ∧ proposal.status ≠ .expired) .proposalNotFound
  storageSet (.multiSigProposal vaultId proposalId) { proposal with status := .vetoed }

/-! ## Execution -/

/-- The number whose bytes, least significant first, are given. -/
def fromLeBytes (bytes : Bytes) : Nat := bytes.foldr (fun b n => b.toNat + 256 * n) 0

def decodeI128 (payload : Bytes) : Contract Int := do
  require (16 ≤ payload.length) .invalidAmount
  let n := fromLeBytes (payload.take 16)
  return if n < 2 ^ 127 then (n : Int) else (n : Int) - 2 ^ 128

def decodeU64 (payload : Bytes) : Contract Nat := do
  require (8 ≤ payload.length) .invalidAmount
  return fromLeBytes (payload.take 8)

def doWithdraw (vaultId : Nat) (vault : Vault) (amount : Int) : Contract Unit := do
  require (0 < amount) .invalidAmount
  require (amount ≤ vault.balance) .insufficientBalance
  transfer vault.tokenAddress currentContractAddress vault.owner amount
  let newBalance ← i128 (vault.balance - amount)
  saveVault vaultId (vault.withBalance newBalance)

/-- What an approved proposal does to the vault. Its status is not looked at. -/
def performOperation (vaultId : Nat) (vault : Vault) (proposal : MultiSigProposal) :
    MultiSigOperation → Contract Unit
  | .withdraw => do
      let amount ← decodeI128 proposal.payload
      doWithdraw vaultId vault amount
  | .updateBeneficiary => do
      let newBeneficiary ← fromSome proposal.addressPayload (.error .invalidAmount)
      require (newBeneficiary ≠ vault.owner) .invalidBeneficiary
      saveVault vaultId (vault.withBeneficiary newBeneficiary)
      moveBeneficiaryIndex vaultId vault.beneficiary newBeneficiary
  | .cancelVault => do
      payShare vault.tokenAddress vault.owner vault.balance
      saveVault vaultId ((vault.withBalance 0).withStatus .cancelled)
      removeOwnerVaultId vault.owner vaultId
      removeBeneficiaryVaultId vault.beneficiary vaultId
  | .transferOwnership => do
      let newOwner ← fromSome proposal.addressPayload (.error .invalidAmount)
      require (newOwner ≠ vault.beneficiary) .invalidBeneficiary
      changeOwner vaultId vault newOwner
  | .updateCheckInInterval => do
      let newInterval ← decodeU64 proposal.payload
      require (newInterval ≠ 0) .invalidInterval
      assertIntervalInBounds newInterval
      saveVault vaultId ((vault.withCheckInInterval newInterval).withLastCheckIn (← timestamp))

/-- The checks of an execution: the caller owns the vault, and the proposal is
marked approved and not expired. -/
def loadExecutable (vaultId proposalId : Nat) (caller : Address) :
    Contract (Vault × MultiSigProposal) := do
  requireAuth caller
  let vault ← loadVault vaultId
  require (caller = vault.owner) .notOwner
  let proposal ← loadProposal vaultId proposalId
  require (proposal.status = .approved) .invalidThreshold
  require ((← timestamp) ≤ proposal.expiresAt) .proposalExpired
  return (vault, proposal)

def executeMultisig (vaultId proposalId : Nat) (caller : Address) : Contract Unit := do
  let (vault, proposal) ← loadExecutable vaultId proposalId caller
  storageSet (.multiSigProposal vaultId proposalId) { proposal with status := .executed }
  performOperation vaultId vault proposal proposal.operation
  removeFromOpenProposals vaultId proposalId

/-- The entry points of multi-signature control. -/
inductive MultisigCall
  | configureMultisig (vaultId : Nat) (caller : Address) (signers : List Address)
      (threshold : Nat)
  | removeMultisig (vaultId : Nat) (caller : Address)
  | removeMultisigSigner (vaultId : Nat) (caller signerToRemove : Address)
  | proposeMultisig (vaultId : Nat) (caller : Address) (operation : MultiSigOperation)
      (payload : Bytes) (addressPayload : Option Address)
  | approveMultisig (vaultId proposalId : Nat) (caller : Address)
  | rejectMultisig (vaultId proposalId : Nat) (caller : Address)
  | vetoProposal (vaultId proposalId : Nat) (caller : Address)
  | executeMultisig (vaultId proposalId : Nat) (caller : Address)

def execMultisig : MultisigCall → Contract Unit
  | .configureMultisig v c ss n => configureMultisig v c ss n
  | .removeMultisig v c => removeMultisig v c
  | .removeMultisigSigner v c a => removeMultisigSigner v c a
  | .proposeMultisig v c op p a => do let _ ← proposeMultisig v c op p a
  | .approveMultisig v p c => approveMultisig v p c
  | .rejectMultisig v p c => rejectMultisig v p c
  | .vetoProposal v p c => vetoProposal v p c
  | .executeMultisig v p c => executeMultisig v p c

/-! ## What an execution does -/

section Specs

variable {e : Env} {s : State} {id pid : Nat} {v : Vault} {proposal : MultiSigProposal}
  {op : MultiSigOperation} {caller : Address}

@[simp ↓] theorem wp_loadProposal {Q : MultiSigProposal → State → Prop} :
    wp (loadProposal id pid) Q e s ↔
      ∀ p, s.get (.multiSigProposal id pid) = some p → Q p s := by
  simp [loadProposal]

@[simp ↓] theorem wp_decodeI128 {b : Bytes} {Q : Int → State → Prop} :
    wp (decodeI128 b) Q e s ↔ ∀ x, decodeI128 b e s = .ok (x, s) → Q x s :=
  Tx.ReadOnly.wp_iff fun _ _ => by simp [decodeI128]

@[simp ↓] theorem wp_decodeU64 {b : Bytes} {Q : Nat → State → Prop} :
    wp (decodeU64 b) Q e s ↔ ∀ n, decodeU64 b e s = .ok (n, s) → Q n s :=
  Tx.ReadOnly.wp_iff fun _ _ => by simp [decodeU64]

@[simp ↓] theorem wp_removeFromOpenProposals {Q : Unit → State → Prop} :
    wp (removeFromOpenProposals id pid) Q e s ↔
      (∀ l, s.get (.openProposals id) = some l →
        Q () (s.put (.openProposals id) (l.filter (· ≠ pid)))) ∧
      (s.get (.openProposals id) = none → Q () s) := by
  simp [removeFromOpenProposals]

/-- The parts of a vault that an operation is about. -/
def MultiSigOperation.parts : MultiSigOperation → List Part
  | .withdraw => [.balance, .funds]
  | .updateBeneficiary => [.beneficiary]
  | .cancelVault => [.balance, .status, .funds]
  | .updateCheckInInterval => [.deadline, .interval]
  | .transferOwnership => [.owner]

/-- An operation changes what it is about, and no proposal or configuration. -/
theorem performOperation_frame (hv : s.vault id = some v) :
    wp (performOperation id v proposal op) (fun _ t => Frame ⟨[id], op.parts, [.indexes]⟩ s t)
      e s := by
  cases op with
  | withdraw =>
      simp [performOperation, doWithdraw, MultiSigOperation.parts, hv, Vault.agreeOff_iff]
  | updateBeneficiary =>
      simp [performOperation, moveBeneficiaryIndex, MultiSigOperation.parts, hv,
        Vault.agreeOff_iff]
  | cancelVault => simp [performOperation, MultiSigOperation.parts, hv, Vault.agreeOff_iff]
  | transferOwnership =>
      simp [performOperation, changeOwner, MultiSigOperation.parts, hv, Vault.agreeOff_iff]
  | updateCheckInInterval =>
      simp [performOperation, MultiSigOperation.parts, hv, Vault.agreeOff_iff]

/-- The record that an operation makes of `v`. -/
def MultiSigProposal.Outcome (p : MultiSigProposal) (now : Nat) (v w : Vault) :
    MultiSigOperation → Prop
  | .withdraw => ∃ amount, 0 < amount ∧ amount ≤ v.balance ∧ w = v.withBalance (v.balance - amount)
  | .updateBeneficiary =>
      ∃ a, p.addressPayload = some a ∧ a ≠ v.owner ∧ w = v.withBeneficiary a
  | .cancelVault => w = (v.withBalance 0).withStatus .cancelled
  | .transferOwnership => ∃ a, p.addressPayload = some a ∧ a ≠ v.beneficiary ∧ w = v.withOwner a
  | .updateCheckInInterval => ∃ n, n ≠ 0 ∧ w = (v.withCheckInInterval n).withLastCheckIn now

/-- The operation pays the owner at most what the vault has. -/
theorem performOperation_funds (hv : s.vault id = some v) :
    wp (performOperation id v proposal op)
      (fun _ t => ∃ w log, Transacts id v w log s t ∧ proposal.Outcome e.timestamp v w op ∧
        (0 ≤ v.balance → w.balance = v.balance + flow log ∧ 0 ≤ w.balance)) e s := by
  cases op with
  | withdraw =>
      simp [performOperation, doWithdraw]
      intro amount _ hpos hle hpay _ _
      exact ⟨_, _, .save hv (fun _ => rfl) rfl (fair_outgoing hpay.1) rfl,
        ⟨amount, hpos, hle, rfl⟩, fun _ => by simp; omega⟩
  | updateBeneficiary =>
      simp [performOperation, moveBeneficiaryIndex]
      intro a ha hne
      exact ⟨fun _ => ⟨_, _, .save hv (fun _ => rfl) rfl fair_nil rfl, ⟨a, ha, hne, rfl⟩,
          fun h => by simpa using h⟩,
        fun _ => ⟨_, _, .save hv (fun _ => rfl) rfl fair_nil rfl, ⟨a, ha, hne, rfl⟩,
          fun h => by simpa using h⟩⟩
  | cancelVault =>
      simp [performOperation]
      refine ⟨fun _ hpay => ?_, fun hneg => ?_⟩
      · exact ⟨_, _, .save hv (fun _ => rfl) rfl (fair_outgoing hpay.1) rfl, rfl, fun _ => by simp⟩
      · exact ⟨_, _, .save hv (fun _ => rfl) rfl fair_nil rfl, rfl, fun h => by simp; omega⟩
  | transferOwnership =>
      simp [performOperation, changeOwner]
      intro a ha hne
      exact ⟨fun _ => ⟨_, _, .save hv (by simp) (by simp) fair_nil rfl, ⟨a, ha, hne, rfl⟩,
          fun h => by simpa using h⟩,
        fun _ => ⟨_, _, .save hv (fun _ => rfl) rfl fair_nil rfl, ⟨a, ha, hne, rfl⟩,
          fun h => by simpa using h⟩⟩
  | updateCheckInInterval =>
      simp [performOperation]
      intro n _ hn _ _
      exact ⟨_, _, .save hv (fun _ => rfl) rfl fair_nil rfl, ⟨n, hn, rfl⟩, fun h => by simpa using h⟩

/-- A successful execution: the owner executes a proposal that is marked approved
and has not expired, which carries its operation out and marks it executed. -/
structure Executes (e : Env) (id pid : Nat) (caller : Address) (v : Vault) (p : MultiSigProposal)
    (s t : State) : Prop where
  vault : s.vault id = some v
  proposal : s.get (.multiSigProposal id pid) = some p
  owner : caller = v.owner
  authorized : e.authorized caller = true
  approved : p.status = .approved
  unexpired : e.timestamp ≤ p.expiresAt
  executed : t.get (.multiSigProposal id pid) = some { p with status := .executed }
  others : ∀ k, k.area = .multisig → k ≠ .multiSigProposal id pid → k ≠ .openProposals id →
    t.get k = s.get k
  frame : Frame ⟨[id], p.operation.parts, [.multisig, .indexes]⟩ s t
  funds : ∃ w log, Transacts id v w log s t ∧ p.Outcome e.timestamp v w p.operation ∧
    (0 ≤ v.balance → w.balance = v.balance + flow log ∧ 0 ≤ w.balance)

theorem Executes.close {l : List Nat} {t : State} (h : Executes e id pid caller v proposal s t) :
    Executes e id pid caller v proposal s (t.put (.openProposals id) l) where
  __ := h
  executed := by simpa using h.executed
  others := fun k harea hk hopen => by rw [State.get_put_of_ne hopen]; exact h.others k harea hk hopen
  frame := by simpa using h.frame
  funds := by simpa using h.funds

theorem executeMultisig_spec :
    wp (executeMultisig id pid caller)
      (fun _ t => ∃ v p, Executes e id pid caller v p s t) e s := by
  simp only [executeMultisig, loadExecutable, Tx.wp_bind, wp_requireAuth, wp_loadVault, wp_require,
    wp_loadProposal, wp_timestamp, Tx.wp_pure, wp_storageSet]
  intro hauth v hv howner p hp happroved hexpires
  have hmarked : (s.put (.multiSigProposal id pid) { p with status := .executed }).vault id =
      some v := by simpa using hv
  refine Tx.wp_mono (Tx.wp_and (performOperation_frame hmarked)
    (performOperation_funds hmarked)) ?_
  rintro _ t ⟨hframe, w, log, htx, houtcome, hfunds⟩
  have hkeys : ∀ k, k.area = .multisig → t.get k =
      (s.put (.multiSigProposal id pid) { p with status := .executed }).get k :=
    fun k hk => hframe.get_of_area (by simp [hk])
  have hdone : Executes e id pid caller v p s t :=
    { vault := hv, proposal := hp, owner := howner, authorized := hauth, approved := happroved
      unexpired := hexpires
      executed := by simpa using hkeys (.multiSigProposal id pid) rfl
      others := fun k harea hk _ => by rw [hkeys k harea, State.get_put_of_ne hk]
      frame := by
        have hmark : Frame ⟨[id], p.operation.parts, [.multisig, .indexes]⟩ s
            (s.put (.multiSigProposal id pid) { p with status := .executed }) := by simp
        exact hmark.trans (hframe.mono (by simp) (by simp) (by simp))
      funds := ⟨w, log, htx.congr_left (by simp) rfl, houtcome, hfunds⟩ }
  simp only [wp_removeFromOpenProposals]
  exact ⟨fun l _ => ⟨v, p, hdone.close⟩, fun _ => ⟨v, p, hdone⟩⟩

end Specs

/-! ## Frames -/

/-- What a call of multi-signature control may write. -/
def MultisigCall.footprint : MultisigCall → Footprint
  | .executeMultisig v _ _ =>
      ⟨[v], [.owner, .beneficiary, .balance, .deadline, .interval, .status, .funds],
        [.multisig, .indexes]⟩
  | .configureMultisig v _ _ _ | .removeMultisig v _ | .removeMultisigSigner v _ _
  | .proposeMultisig v _ _ _ _ | .approveMultisig v _ _ | .rejectMultisig v _ _
  | .vetoProposal v _ _ => ⟨[v], [], [.multisig]⟩

section Frames

variable {e : Env} {s : State}

theorem removeMultisigSigner_frame {id : Nat} {caller signer : Address} :
    wp (removeMultisigSigner id caller signer)
      (fun _ t => Frame ⟨[id], [], [.multisig]⟩ s t) e s := by
  simp only [removeMultisigSigner, Tx.wp_bind, wp_requireAuth, wp_loadVault, wp_require,
    wp_storageGet, Tx.wp_fromSome, wp_storageSet]
  intro _ v hv _ config _ _
  refine Tx.wp_forEach (fun i _ t ht => ?_) (by simp)
  simp [rejectIfShort, ht]

theorem execMultisig_frame (c : MultisigCall) :
    wp (execMultisig c) (fun _ t => Frame c.footprint s t) e s := by
  cases c with
  | configureMultisig => simp [execMultisig, MultisigCall.footprint, configureMultisig]
  | removeMultisig => simp [execMultisig, MultisigCall.footprint, removeMultisig]
  | removeMultisigSigner => exact removeMultisigSigner_frame
  | proposeMultisig => simp [execMultisig, MultisigCall.footprint, proposeMultisig]
  | approveMultisig =>
      simp [execMultisig, MultisigCall.footprint, approveMultisig, loadConfigBySigner]
  | rejectMultisig => simp [execMultisig, MultisigCall.footprint, rejectMultisig]
  | vetoProposal =>
      simp [execMultisig, MultisigCall.footprint, vetoProposal, loadConfigBySigner]
  | executeMultisig =>
      refine Tx.wp_mono executeMultisig_spec ?_
      rintro _ t ⟨v, p, h⟩
      refine h.frame.mono (fun _ => id) (fun q hq => ?_) (fun _ => id)
      cases hop : p.operation <;> simp_all [MultiSigOperation.parts, MultisigCall.footprint] <;> grind

end Frames

end Heirloom
