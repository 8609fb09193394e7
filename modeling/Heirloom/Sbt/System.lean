import Heirloom.Lib.Runs
import Heirloom.Sbt.Composition
import Heirloom.Sbt.Holding

/-!
# Runs of the soulbound token contract

Every call that writes, the keys that it may write, and runs from the empty store.
-/

namespace Heirloom.Sbt

open Transaction TypedStore Runs

inductive Call
  | initializeContract (admin : Address)
  | mint (recipient : Address) (metadata : Bytes)
  | compressSbtMetadata (id : Nat)
  | createFractionalSbt (id : Nat) (holders : List Address) (fractions : List Nat)
  | escrowSbt (id : Nat) (escrowAgent : Address) (conditions : Bytes)
  | releaseSbtFromEscrow (id : Nat) (proof : Bytes)
  | atomicReleaseCredentials (credentialIds : List Nat)
  | composeSbtWithNft (id : Nat) (nftAddress : Address) (nftId : Nat)
  | decomposeSbt (id : Nat)
  | setCompositionComponents (id : Nat) (componentIds : List Nat)
  | setSharedMetadata (id : Nat) (metadata : Bytes)
  | batchTransferSbtConditional (ids : List Nat) (transfers : List TransferInstruction)
  | delegateSbtTemporarily (id : Nat) (delegate : Address) (durationSeconds : Nat)
  | revokeSbtDelegation (id : Nat)
  | generateSbtRecoveryCodes (id : Nat)
  | recoverSbtWithRecoveryCode (id : Nat) (recoveryCode : Bytes) (newHolder : Address)

def exec : Call → Contract Unit
  | .initializeContract admin => initializeContract admin
  | .mint recipient metadata => do let _ ← mint recipient metadata
  | .compressSbtMetadata id => do let _ ← compressSbtMetadata id
  | .createFractionalSbt id holders fractions => do
      let _ ← createFractionalSbt id holders fractions
  | .escrowSbt id escrowAgent conditions => do let _ ← escrowSbt id escrowAgent conditions
  | .releaseSbtFromEscrow id proof => releaseSbtFromEscrow id proof
  | .atomicReleaseCredentials credentialIds => do
      let _ ← atomicReleaseCredentials credentialIds
  | .composeSbtWithNft id nftAddress nftId => composeSbtWithNft id nftAddress nftId
  | .decomposeSbt id => decomposeSbt id
  | .setCompositionComponents id componentIds => setCompositionComponents id componentIds
  | .setSharedMetadata id metadata => setSharedMetadata id metadata
  | .batchTransferSbtConditional ids transfers => batchTransferSbtConditional ids transfers
  | .delegateSbtTemporarily id delegate durationSeconds =>
      delegateSbtTemporarily id delegate durationSeconds
  | .revokeSbtDelegation id => revokeSbtDelegation id
  | .generateSbtRecoveryCodes id => do let _ ← generateSbtRecoveryCodes id
  | .recoverSbtWithRecoveryCode id recoveryCode newHolder => do
      let _ ← recoverSbtWithRecoveryCode id recoveryCode newHolder

/-- A call of the contract that succeeds; one that fails changes nothing. -/
def Step (s : State) (k : Env × Call) (t : State) : Prop := exec k.2 k.1 s = .ok ((), t)

/-- Runs from the empty store. -/
def Reachable (s : State) : Prop := ∃ ks, Run Step .empty ks s

/-! ## What a call may write -/

/-- The parts of the storage. -/
inductive Area
  | minting | owner | metadata | link | components | delegation | fractions | escrow
  | recoveryCodes | recoveryAttempts
deriving DecidableEq

@[reducible] def DataKey.area : DataKey → Area
  | .admin | .nextTokenId | .mintedAt _ => .minting
  | .owner _ => .owner
  | .metadata _ | .metadataCompressed _ => .metadata
  | .composition _ | .sharedMetadata _ => .link
  | .compositionComponents _ => .components
  | .delegation _ | .delegationHistory _ => .delegation
  | .fractionalOwnership _ | .ownershipHistory _ => .fractions
  | .escrow _ | .nextEscrowId => .escrow
  | .recoveryCodes _ => .recoveryCodes
  | .recoveryAttempts _ => .recoveryAttempts

/-- The areas that a call may write. -/
def Call.areas : Call → List Area
  | .initializeContract _ => [.minting]
  | .mint _ _ => [.minting, .owner, .metadata]
  | .compressSbtMetadata _ => [.metadata]
  | .createFractionalSbt _ _ _ => [.fractions]
  | .escrowSbt _ _ _ | .releaseSbtFromEscrow _ _ | .atomicReleaseCredentials _ => [.escrow]
  | .composeSbtWithNft _ _ _ | .decomposeSbt _ | .setSharedMetadata _ _ => [.link]
  | .setCompositionComponents _ _ => [.components]
  | .batchTransferSbtConditional _ _ => [.owner, .delegation]
  | .delegateSbtTemporarily _ _ _ | .revokeSbtDelegation _ => [.delegation]
  | .generateSbtRecoveryCodes _ => [.recoveryCodes]
  | .recoverSbtWithRecoveryCode _ _ _ => [.recoveryAttempts, .recoveryCodes, .owner, .delegation]

/-- `t` is `s` outside the given areas. -/
def SameBut (areas : List Area) (s t : State) : Prop := Store.SameOff (·.area ∈ areas) s t

section Frames

variable {e : Env} {s t u : State} {c : Call} {areas : List Area} {k : DataKey} {v : k.Value}
  {id : Nat}

@[simp] theorem sameBut_refl : SameBut areas s s := Store.sameOff_refl

@[simp] theorem sameBut_put (h : k.area ∈ areas) :
    SameBut areas s (t.put k v) ↔ SameBut areas s t :=
  Store.sameOff_put h

@[simp] theorem sameBut_erase (h : k.area ∈ areas) :
    SameBut areas s (t.erase k) ↔ SameBut areas s t :=
  Store.sameOff_erase h

theorem exec_sameBut (e : Env) (c : Call) (s : State) :
    wp (exec c) (fun _ t => SameBut c.areas s t) e s := by
  cases c with
  | initializeContract admin =>
      simp [exec, initializeContract, DataKey.area, Call.areas]
  | mint recipient metadata =>
      simp [exec, mint, requireAdmin, DataKey.area, Call.areas]
  | compressSbtMetadata id =>
      simp [exec, compressSbtMetadata, stringToBytes, DataKey.area, Call.areas]
  | createFractionalSbt id holders fractions =>
      simp only [exec, createFractionalSbt, Tx.wp_bind, Tx.wp_pure, wp_requireOwner, Tx.wp_ensure,
        Tx.wp_ask, wp_save]
      intro _ _ _ _ _ _
      refine Tx.wp_forEach (fun p _ t ht => ?_) (by simp [DataKey.area, Call.areas])
      simpa [pushOwnershipHistory, DataKey.area, Call.areas] using ht
  | escrowSbt id escrowAgent conditions =>
      simp [exec, escrowSbt, DataKey.area, Call.areas]
  | releaseSbtFromEscrow id proof =>
      simp [exec, releaseSbtFromEscrow, DataKey.area, Call.areas]
  | atomicReleaseCredentials credentialIds =>
      simp only [exec, atomicReleaseCredentials, Tx.wp_bind, Tx.wp_pure, Tx.wp_ensure]
      intro _
      refine Tx.wp_mono (Tx.wp_foldEach (I := fun _ t => t = s) (fun id _ batch t ht => ?_) rfl) ?_
      · subst ht
        exact readOnly_validateRelease e t
      · rintro batch _ rfl
        refine Tx.wp_forEach (fun escrow _ t ht => ?_) sameBut_refl
        simpa [DataKey.area, Call.areas] using ht
  | composeSbtWithNft id nftAddress nftId =>
      simp [exec, composeSbtWithNft, DataKey.area, Call.areas]
  | decomposeSbt id =>
      simp [exec, decomposeSbt, DataKey.area, Call.areas]
  | setCompositionComponents id componentIds =>
      simp only [exec, setCompositionComponents, compositionReachesAny, Tx.wp_bind,
        wp_requireOwner, Tx.wp_ensure, Tx.wp_read]
      intro _ _ _ _
      refine Tx.wp_mono (Tx.wp_forEach (I := fun t => t = s) (fun _ _ t ht => ?_) rfl) ?_
      · subst ht
        simp
      · rintro _ _ rfl
        simp [DataKey.area, Call.areas]
  | setSharedMetadata id metadata =>
      simp [exec, setSharedMetadata, DataKey.area, Call.areas]
  | batchTransferSbtConditional ids transfers =>
      simp only [exec, batchTransferSbtConditional, Tx.wp_bind, Tx.wp_ensure]
      intro _ _
      refine Tx.wp_mono (Tx.ReadOnly.forEach (fun p => readOnly_checkTransfer) e s) ?_
      rintro _ _ rfl
      refine Tx.wp_forEach (fun p _ t ht => ?_) sameBut_refl
      simpa [applyTransfer, DataKey.area, Call.areas] using ht
  | delegateSbtTemporarily id delegate durationSeconds =>
      simp [exec, delegateSbtTemporarily, pushDelegationHistory, DataKey.area, Call.areas]
  | revokeSbtDelegation id =>
      simp [exec, revokeSbtDelegation, pushDelegationHistory, DataKey.area, Call.areas]
  | generateSbtRecoveryCodes id =>
      simp [exec, generateSbtRecoveryCodes, DataKey.area, Call.areas]
  | recoverSbtWithRecoveryCode id recoveryCode newHolder =>
      simp [exec, recoverSbtWithRecoveryCode, isFractional, enforceRecoveryRateLimit,
        DataKey.area, Call.areas]

/-- A step leaves the keys alone that its call does not write. -/
theorem Step.get_eq (h : Step s (e, c) t) (hk : k.area ∉ c.areas) : t.get k = s.get k :=
  exec_sameBut e c s () t h k hk

end Frames

/-! ## Owners -/

/-- What a call does to the owner of a token. -/
inductive OwnerEffect (e : Env) (s t : State) (id : Nat) : Call → Prop
  | kept {c : Call} (h : t.get (.owner id) = s.get (.owner id)) : OwnerEffect e s t id c
  | minted {recipient : Address} {metadata : Bytes} (hid : id = (s.get .nextTokenId).getD 0)
      (h : t.get (.owner id) = some recipient) : OwnerEffect e s t id (.mint recipient metadata)
  | transferred {ids : List Nat} {transfers : List TransferInstruction} {owner recipient : Address}
      (howner : s.get (.owner id) = some owner) (hsigned : e.authorized owner = true)
      (hto : destination (ids.zip transfers) id = some recipient)
      (h : t.get (.owner id) = some recipient) :
      OwnerEffect e s t id (.batchTransferSbtConditional ids transfers)
  | recovered {code : Bytes} {newHolder : Address} (hattempt : Attempt e s t id code newHolder true)
      (h : t.get (.owner id) = some newHolder) :
      OwnerEffect e s t id (.recoverSbtWithRecoveryCode id code newHolder)

section Owners

variable {e : Env} {s t : State} {c : Call} {id id' : Nat} {ids : List Nat}
  {transfers : List TransferInstruction} {code : Bytes} {newHolder : Address} {b : Bool}

theorem step_attempt (h : Step s (e, .recoverSbtWithRecoveryCode id code newHolder) t) :
    ∃ b, Attempt e s t id code newHolder b := by
  obtain ⟨b, u, hrecover, hu⟩ := Tx.ok_bind.mp h
  obtain ⟨-, rfl⟩ := Tx.ok_pure.mp hu
  exact ⟨b, recoverSbtWithRecoveryCode_wp b u hrecover⟩

theorem Attempt.owner_eq (h : Attempt e s t id code newHolder b) :
    t.get (.owner id') = if b = true ∧ id' = id then some newHolder else s.get (.owner id') := by
  obtain ⟨codes, attempts, -, ⟨rfl, -, rfl⟩ | ⟨rfl, -, rfl⟩⟩ := h.effect
  · simp
  · rw [get_owner_recovered]
    simp

theorem step_owner (id : Nat) (h : Step s (e, c) t) : OwnerEffect e s t id c := by
  cases c with
  | mint recipient metadata =>
      obtain ⟨id', u, hmint, hu⟩ := Tx.ok_bind.mp h
      obtain ⟨-, rfl⟩ := Tx.ok_pure.mp hu
      obtain ⟨-, hid, rfl⟩ := mint_ok hmint
      by_cases heq : id = id'
      · subst heq
        exact .minted hid (by simp [withToken])
      · exact .kept (by simp [withToken, heq])
  | batchTransferSbtConditional ids transfers =>
      obtain ⟨rfl, hsigned⟩ := batchTransferSbtConditional_wp () t h
      cases hto : destination (ids.zip transfers) id with
      | none => exact .kept (by rw [get_owner_foldl_transferred, hto, Option.none_or])
      | some recipient =>
          obtain ⟨p, hp, rfl, -⟩ := destination_eq_some hto
          obtain ⟨owner, howner, hauth⟩ := hsigned p hp
          exact .transferred howner hauth hto
            (by rw [get_owner_foldl_transferred, hto, Option.some_or])
  | recoverSbtWithRecoveryCode id' code newHolder =>
      obtain ⟨b, hattempt⟩ := step_attempt h
      by_cases heq : b = true ∧ id = id'
      · obtain ⟨rfl, rfl⟩ := heq
        exact .recovered hattempt (by rw [hattempt.owner_eq, if_pos ⟨rfl, rfl⟩])
      · exact .kept (by rw [hattempt.owner_eq, if_neg heq])
  | _ => exact .kept (h.get_eq (by simp [Call.areas]))

/-- Only a mint gives an owner to what has none, and nothing takes it away. -/
theorem Step.owner_none_iff (id : Nat) (h : Step s (e, c) t)
    (hmint : ∀ recipient metadata, c ≠ .mint recipient metadata) :
    t.get (.owner id) = none ↔ s.get (.owner id) = none := by
  cases step_owner id h with
  | kept hkept => rw [hkept]
  | minted => exact absurd rfl (hmint _ _)
  | transferred howner _ _ hnew => simp [howner, hnew]
  | recovered hattempt hnew => simp [hattempt.owned, hnew]

theorem Step.owner_kept (h : Step s (e, c) t) (hs : s.get (.owner id) ≠ none) :
    t.get (.owner id) ≠ none := by
  cases step_owner id h with
  | kept hkept => rwa [hkept]
  | minted _ hnew => simp [hnew]
  | transferred _ _ _ hnew => simp [hnew]
  | recovered _ hnew => simp [hnew]

end Owners

/-! ## States with tokens -/

/-- A call at time 0 that everyone has signed, with all random draws and hashes zero. -/
def signed : Env :=
  ⟨0, fun _ => true, fun _ _ => none, fun _ => .replicate 32 0, fun _ => .replicate 32 0⟩

/-- The contract after its initialisation. -/
def initialisedState : State := (Store.put .empty .admin ⟨8⟩).put .nextTokenId 0

theorem reachable_initialisedState : Reachable initialisedState :=
  ⟨[(signed, .initializeContract ⟨8⟩)], .next .start rfl⟩

/-- The contract with the tokens 0 to `n - 1`, all with one owner. -/
def tokensState : Nat → State
  | 0 => initialisedState
  | n + 1 => withToken (tokensState n) n ⟨9⟩ [65] 0

theorem tokensState_next (n : Nat) : (tokensState n).get .nextTokenId = some n := by
  cases n <;> simp [tokensState, withToken, initialisedState]

theorem tokensState_admin (n : Nat) : (tokensState n).get .admin = some ⟨8⟩ := by
  induction n with
  | zero => simp [tokensState, initialisedState]
  | succ n ih => simpa [tokensState, withToken] using ih

theorem reachable_tokensState {n : Nat} (hn : n ≤ u64Max) : Reachable (tokensState n) := by
  induction n with
  | zero => exact reachable_initialisedState
  | succ n ih =>
      obtain ⟨ks, hrun⟩ := ih (Nat.le_of_succ_le hn)
      refine ⟨_, hrun.next (k := (signed, .mint ⟨9⟩ [65])) ?_⟩
      have hmint : mint ⟨9⟩ [65] signed (tokensState n) = .ok (n, tokensState (n + 1)) :=
        mint_eq (tokensState_admin n) rfl (List.cons_ne_nil 65 []) (tokensState_next n) hn
      exact Tx.ok_bind.mpr ⟨n, _, hmint, Tx.ok_pure.mpr ⟨rfl, rfl⟩⟩

end Heirloom.Sbt
