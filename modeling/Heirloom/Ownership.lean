import Heirloom.Frame

/-!
# Ownership of a vault

The immediate transfer, and the two-step transfer with its time lock, expiry
and cancellation.
-/

namespace Heirloom

open Transaction

/-- Makes `newOwner` the owner and moves the vault between the owner indexes. -/
def changeOwner (vaultId : Nat) (vault : Vault) (newOwner : Address) : Contract Unit := do
  onlyIf (vault.owner ≠ newOwner) do
    removeOwnerVaultId vault.owner vaultId
    addOwnerVaultId newOwner vaultId
  saveVault vaultId (vault.withOwner newOwner)

def transferOwnership (vaultId : Nat) (caller newOwner : Address) : Contract Unit := do
  require ((← loadPaused) = false) .paused
  let vault ← loadLockedByOwner vaultId caller
  require (newOwner ≠ vault.beneficiary) .invalidBeneficiary
  changeOwner vaultId vault newOwner

def initiateOwnershipTransfer (vaultId : Nat) (caller newOwner : Address) : Contract Nat := do
  require ((← loadPaused) = false) .paused
  let vault ← loadLockedByOwner vaultId caller
  require (newOwner ≠ vault.beneficiary) .invalidBeneficiary
  require (newOwner ≠ vault.owner) .alreadyOwner
  let now ← timestamp
  let unlocksAt ← u64 (now + ownershipTransferTimelock)
  let expiresAt ← u64 (now + ownershipTransferExpiry)
  storageSet (.pendingOwnership vaultId) ⟨newOwner, now, unlocksAt, expiresAt⟩
  return unlocksAt

def acceptOwnershipTransfer (vaultId : Nat) (newOwner : Address) : Contract Unit := do
  require ((← loadPaused) = false) .paused
  requireAuth newOwner
  let request : OwnershipTransferRequest ←
    fromSome (← storageGet (.pendingOwnership vaultId)) (.error .noPendingOwnershipTransfer)
  require (newOwner = request.newOwner) .notOwner
  let now ← timestamp
  require (request.unlocksAt ≤ now) .ownershipTransferTimeLocked
  require (now ≤ request.expiresAt) .ownershipTransferExpired
  let vault ← loadVault vaultId
  require (vault.status = .locked) .alreadyReleased
  changeOwner vaultId vault newOwner
  storageRemove (.pendingOwnership vaultId)

def cancelOwnershipTransfer (vaultId : Nat) (caller : Address) : Contract Unit := do
  requireAuth caller
  let vault ← loadVault vaultId
  let request : OwnershipTransferRequest ←
    fromSome (← storageGet (.pendingOwnership vaultId)) (.error .noPendingOwnershipTransfer)
  require (caller = vault.owner ∨ caller = request.newOwner) .notOwner
  storageRemove (.pendingOwnership vaultId)

def expireOwnershipTransfer (vaultId : Nat) : Contract Unit := do
  let request : OwnershipTransferRequest ←
    fromSome (← storageGet (.pendingOwnership vaultId)) (.error .noPendingOwnershipTransfer)
  require (request.expiresAt < (← timestamp)) .notExpired
  storageRemove (.pendingOwnership vaultId)

/-- The entry points about ownership. -/
inductive OwnershipCall
  | transferOwnership (vaultId : Nat) (caller newOwner : Address)
  | initiateOwnershipTransfer (vaultId : Nat) (caller newOwner : Address)
  | acceptOwnershipTransfer (vaultId : Nat) (newOwner : Address)
  | cancelOwnershipTransfer (vaultId : Nat) (caller : Address)
  | expireOwnershipTransfer (vaultId : Nat)

def execOwnership : OwnershipCall → Contract Unit
  | .transferOwnership v c a => transferOwnership v c a
  | .initiateOwnershipTransfer v c a => do let _ ← initiateOwnershipTransfer v c a
  | .acceptOwnershipTransfer v a => acceptOwnershipTransfer v a
  | .cancelOwnershipTransfer v c => cancelOwnershipTransfer v c
  | .expireOwnershipTransfer v => expireOwnershipTransfer v

/-! ## What the calls do -/

section Specs

variable {e : Env} {s : State} {id : Nat} {caller newOwner : Address}

theorem transferOwnership_spec :
    wp (transferOwnership id caller newOwner) (fun _ t => ∃ v,
      Transacts id v (v.withOwner newOwner) [] s t ∧ v.status = .locked ∧ caller = v.owner ∧
        e.authorized caller = true ∧ newOwner ≠ v.beneficiary) e s := by
  simp [transferOwnership, changeOwner]
  intro _ hauth v hv howner hlocked hne
  refine ⟨fun _ => ?_, fun _ => ?_⟩
  · exact ⟨v, .save hv (by simp) (by simp) fair_nil rfl, hlocked, howner, hauth, hne⟩
  · exact ⟨v, .save hv (by simp) rfl fair_nil rfl, hlocked, howner, hauth, hne⟩

/-- The request that `initiateOwnershipTransfer` leaves behind at `now`. -/
def ownershipRequest (newOwner : Address) (now : Nat) : OwnershipTransferRequest :=
  ⟨newOwner, now, now + ownershipTransferTimelock, now + ownershipTransferExpiry⟩

theorem initiateOwnershipTransfer_spec :
    wp (initiateOwnershipTransfer id caller newOwner) (fun _ t =>
      t = s.put (.pendingOwnership id) (ownershipRequest newOwner e.timestamp) ∧
        ∃ v, s.vault id = some v ∧ caller = v.owner ∧ e.authorized caller = true ∧
          v.status = .locked ∧ newOwner ≠ v.beneficiary ∧ newOwner ≠ v.owner) e s := by
  simp [initiateOwnershipTransfer, ownershipRequest]
  exact fun _ hauth v hv howner hlocked hheir hsame _ _ =>
    ⟨v, hv, howner, hauth, hlocked, hheir, hsame⟩

theorem acceptOwnershipTransfer_spec :
    wp (acceptOwnershipTransfer id newOwner) (fun _ t => ∃ v r,
      Transacts id v (v.withOwner newOwner) [] s t ∧ v.status = .locked ∧
        s.get (.pendingOwnership id) = some r ∧ newOwner = r.newOwner ∧
          r.unlocksAt ≤ e.timestamp ∧ e.timestamp ≤ r.expiresAt ∧
            t.get (.pendingOwnership id) = none) e s := by
  simp [acceptOwnershipTransfer, changeOwner]
  intro _ _ r hr hnew hunlocked hunexpired v hv hlocked
  refine ⟨fun _ => ?_, fun _ => ?_⟩
  · exact ⟨v, .save hv (by simp) (by simp) fair_nil rfl, hlocked, r, hr, hnew, hunlocked, hunexpired⟩
  · exact ⟨v, .save hv (by simp) rfl fair_nil rfl, hlocked, r, hr, hnew, hunlocked, hunexpired⟩

end Specs

/-- What a call about ownership may write. -/
def OwnershipCall.footprint : OwnershipCall → Footprint
  | .transferOwnership v _ _ => ⟨[v], [.owner], [.indexes]⟩
  | .initiateOwnershipTransfer v _ _ => ⟨[v], [], [.transfers]⟩
  | .acceptOwnershipTransfer v _ => ⟨[v], [.owner], [.indexes, .transfers]⟩
  | .cancelOwnershipTransfer v _ | .expireOwnershipTransfer v => ⟨[v], [], [.transfers]⟩

section Frames

variable {e : Env} {s : State}

theorem execOwnership_frame (c : OwnershipCall) :
    wp (execOwnership c) (fun _ t => Frame c.footprint s t) e s := by
  cases c with
  | transferOwnership =>
      simp [execOwnership, OwnershipCall.footprint, transferOwnership, changeOwner]
      intros
      simp [*, Vault.agreeOff_iff]
  | initiateOwnershipTransfer =>
      simp [execOwnership, OwnershipCall.footprint, initiateOwnershipTransfer]
  | acceptOwnershipTransfer =>
      simp [execOwnership, OwnershipCall.footprint, acceptOwnershipTransfer, changeOwner]
      intros
      simp [*, Vault.agreeOff_iff]
  | cancelOwnershipTransfer =>
      simp [execOwnership, OwnershipCall.footprint, cancelOwnershipTransfer]
  | expireOwnershipTransfer =>
      simp [execOwnership, OwnershipCall.footprint, expireOwnershipTransfer]

end Frames

end Heirloom
