import Heirloom.Lib.Runs
import Heirloom.Verifier.Contract

/-!
# Runs of the credential verifier

The calls that the contract takes, in any order and by anyone, on a ledger whose
time never goes back and whose hash function is always the same. `exec_frame`
says once what each call may write.
-/

namespace Heirloom.Verifier

open Transaction TypedStore Runs

/-! ## Frames -/

/-- What a call may write. -/
def Call.areas : Call → List Area
  | .initializeContract _ | .setDisputeThreshold _ => [.config]
  | .registerOracle _ | .revokeOracle _ => [.oracles]
  | .attest _ _ _ => [.attestations, .ids, .snapshots]
  | .createDerivedCredential _ _ _ _ => [.attestations, .ids, .snapshots, .parents]
  | .rescheduleConsistencyCheck _ => [.attestations]
  | .initiateCredentialDispute _ _ _ => [.disputes]
  | .voteOnDispute _ _ _ => [.disputes, .invalidations, .snapshots]
  | .verifyClaim _ _ | .verifyLatticeProof _ _ | .maskProofFields _ _
  | .verifyCredentialsConsistent _ _ | .getAttestation _ _ => [.audit]
  | .verifyMaskedProof _ _ | .verifyConditionalProof _ _ => []
  | .setCredentialPrivacy _ _ => [.privacy]

/-- `t` is `s` outside the given areas. -/
def SameBut (areas : List Area) (s t : State) : Prop := Store.SameOff (·.area ∈ areas) s t

section Frames

variable {e : Env} {s t u : State} {areas : List Area} {k : DataKey} {v : k.Value} {id : Nat}

@[simp] theorem sameBut_refl : SameBut areas s s := Store.sameOff_refl

theorem SameBut.trans (h : SameBut areas s t) (h' : SameBut areas t u) : SameBut areas s u :=
  Store.SameOff.trans h h'

theorem SameBut.get (h : SameBut areas s t) (hk : k.area ∉ areas) : t.get k = s.get k := h k hk

@[simp] theorem sameBut_put (h : k.area ∈ areas) : SameBut areas s (t.put k v) ↔ SameBut areas s t :=
  Store.sameOff_put h

@[simp] theorem sameBut_erase (h : k.area ∈ areas) : SameBut areas s (t.erase k) ↔ SameBut areas s t :=
  Store.sameOff_erase h

theorem readOnly_validateFrom {fuel current depth : Nat} :
    Tx.ReadOnly (validateFrom fuel current depth) := by
  induction fuel generalizing current depth with
  | zero => exact fun _ _ => by simp [validateFrom]
  | succ fuel ih =>
      intro e s
      simp only [validateFrom, isCredentialInvalidated, loadParent, Tx.wp_bind, Tx.wp_pure,
        wp_load, wp_require, Tx.wp_ifSome]
      exact fun _ => ⟨fun parent _ _ => ih e s, fun _ => trivial⟩

@[simp ↓] theorem wp_validateCredentialChain {Q : Unit → State → Prop} :
    wp (validateCredentialChain id) Q e s ↔
      ∀ u, validateCredentialChain id e s = .ok (u, s) → Q u s :=
  readOnly_validateFrom.wp_iff

@[simp ↓] theorem wp_isOracle {a : Address} {Q : Bool → State → Prop} :
    wp (isOracle a) Q e s ↔ Q ((s.get (.oracle a)).getD false) s := by
  simp only [isOracle, Tx.wp_bind, Tx.wp_pure, wp_load]

@[simp ↓] theorem wp_isCredentialInvalidated {Q : Bool → State → Prop} :
    wp (isCredentialInvalidated id) Q e s ↔
      Q ((s.get (.credentialInvalidated id)).getD false) s := by
  simp only [isCredentialInvalidated, Tx.wp_bind, Tx.wp_pure, wp_load]

@[simp ↓] theorem wp_loadParent {Q : Option Nat → State → Prop} :
    wp (loadParent id) Q e s ↔ Q (s.get (.credentialParent id)) s :=
  wp_load

theorem readOnly_verifyInternal {proof claim : Bytes} : Tx.ReadOnly (verifyInternal proof claim) :=
  fun _ _ => by simp [verifyInternal, assertSizes]

@[simp ↓] theorem wp_verifyInternal {proof claim : Bytes} {Q : Bool → State → Prop} :
    wp (verifyInternal proof claim) Q e s ↔
      ∀ b, verifyInternal proof claim e s = .ok (b, s) → Q b s :=
  readOnly_verifyInternal.wp_iff

@[simp ↓] theorem wp_isValidLatticeProof {proof : Bytes} {Q : Bool → State → Prop} :
    wp (isValidLatticeProof proof) Q e s ↔
      ∀ b, isValidLatticeProof proof e s = .ok (b, s) → Q b s :=
  Tx.ReadOnly.wp_iff fun _ _ => by simp [isValidLatticeProof]

@[simp ↓] theorem wp_attestedBy {record : Option AttestationRecord} {Q : Bool → State → Prop} :
    wp (attestedBy record) Q e s ↔
      Q (record.any fun r => (s.get (.oracle r.oracle)).getD false) s := by
  cases record <;> simp [attestedBy]

theorem verifyClaim_frame {proof claim : Bytes} :
    wp (verifyClaim proof claim) (fun _ t => SameBut [.audit] s t) e s := by
  simp [verifyClaim, recordVerification, DataKey.area]

theorem verifyAll_frame {pairs : List (Bytes × Bytes)} :
    wp (verifyAll pairs) (fun _ t => SameBut [.audit] s t) e s := by
  induction pairs generalizing s with
  | nil => simp [verifyAll]
  | cons p rest ih =>
      simp only [verifyAll, Tx.wp_bind]
      refine Tx.wp_mono verifyClaim_frame fun b t ht => ?_
      split
      · exact Tx.wp_mono ih fun _ u hu => ht.trans hu
      · exact Tx.wp_pure.mpr ht

theorem readOnly_maskBytes {proof : Bytes} {mask : Nat} : Tx.ReadOnly (maskBytes proof mask) := by
  intro e s
  refine Tx.wp_foldEach (I := fun _ t => t = s) ?_ rfl
  rintro i - masked t rfl
  simp

theorem maskProofFields_frame {proof : Bytes} {fields : List Nat} :
    wp (maskProofFields proof fields) (fun _ t => SameBut [.audit] s t) e s := by
  simp only [maskProofFields, Tx.wp_bind, wp_require]
  intro _ _ _
  refine Tx.wp_mono (Q := fun _ t => t = s) ?_ ?_
  · refine Tx.wp_foldEach (I := fun _ t => t = s) ?_ rfl
    rintro i - mask t rfl
    simp
  · rintro mask _ rfl
    refine Tx.wp_mono (readOnly_maskBytes _ _) ?_
    rintro body _ rfl
    simp [DataKey.area]

@[simp ↓] theorem wp_mayRead {a : Address} {level : PrivacyLevel} {Q : Bool → State → Prop} :
    wp (mayRead a level) Q e s ↔ ∀ b, mayRead a level e s = .ok (b, s) → Q b s :=
  Tx.ReadOnly.wp_iff fun _ _ => by cases level <;> simp [mayRead, isAdmin]

/-- A call changes nothing outside its areas. -/
theorem exec_frame (c : Call) : wp (exec c) (fun _ t => SameBut c.areas s t) e s := by
  cases c with
  | initializeContract | setDisputeThreshold | registerOracle | revokeOracle
  | rescheduleConsistencyCheck | initiateCredentialDispute | setCredentialPrivacy =>
      simp [exec, Call.areas, initializeContract, setDisputeThreshold, registerOracle, revokeOracle,
        rescheduleConsistencyCheck, initiateCredentialDispute, setCredentialPrivacy, requireAdmin,
        DataKey.area]
  | attest =>
      simp [exec, Call.areas, attest, requireRegisteredOracle, mintOrReuseCredentialId,
        storeAttestation, recordCredentialSnapshot, DataKey.area]
  | createDerivedCredential =>
      simp [exec, Call.areas, createDerivedCredential, requireRegisteredOracle,
        mintOrReuseCredentialId, storeAttestation, recordCredentialSnapshot, DataKey.area]
  | voteOnDispute =>
      simp [exec, Call.areas, voteOnDispute, requireRegisteredOracle, Dispute.count,
        getDisputeThreshold, resolveDispute, loadAttestationRecord, recordCredentialSnapshot,
        DataKey.area]
  | verifyClaim =>
      simp only [exec, Tx.wp_bind, Tx.wp_pure]
      exact verifyClaim_frame
  | verifyLatticeProof =>
      simp [exec, Call.areas, verifyLatticeProof, assertSizes, recordVerification, DataKey.area]
  | maskProofFields =>
      simp only [exec, Tx.wp_bind, Tx.wp_pure]
      exact maskProofFields_frame
  | verifyMaskedProof => simp [exec, Call.areas, verifyMaskedProof]
  | verifyConditionalProof => simp [exec, Call.areas, verifyConditionalProof]
  | verifyCredentialsConsistent =>
      simp only [exec, verifyCredentialsConsistent, Tx.wp_bind, wp_require]
      refine fun _ _ => Tx.wp_mono verifyAll_frame fun b t ht => ?_
      split <;> exact Tx.wp_pure.mpr (Tx.wp_pure.mpr ht)
  | getAttestation =>
      simp [exec, Call.areas, getAttestation, loadAttestationRecord, credentialPrivacy,
        redactAttestationRecord, DataKey.area]

end Frames

/-! ## Runs -/

/-- The contract on a ledger with a clock and a hash function. -/
structure World where
  state : State
  clock : Nat
  sha256 : Bytes → Bytes32

/-- A call, in the environment it sees. -/
structure Event where
  env : Env
  call : Call

/-- One step: a successful call, not before the last one. -/
inductive Step : World → Event → World → Prop
  | call {w : World} {e : Env} {c : Call} {t : State} :
      w.clock ≤ e.timestamp → e.sha256 = w.sha256 → exec c e w.state = .ok ((), t) →
      Step w ⟨e, c⟩ ⟨t, e.timestamp, w.sha256⟩

/-- The contract right after `initialize`. -/
def Genesis (w : World) : Prop :=
  ∃ (e : Env) (admin : Address), w.clock = e.timestamp ∧
    initializeContract admin e .empty = .ok ((), w.state)

/-- Some run from the initialised contract leads to `w`. -/
def Reachable (w : World) : Prop := ∃ w₀ ks, Genesis w₀ ∧ Run Step w₀ ks w

/-- A condition on the calls of a run. -/
def OnCalls (P : State → Env → Call → Prop) (w : World) (k : Event) : Prop :=
  P w.state k.env k.call

section Systems

variable {w w' w₀ : World} {s t : State} {e : Env} {c : Call} {k : DataKey} {ks : List Event}

/-- Only the admin is set at first. -/
theorem Genesis.get (h : Genesis w) (hk : k ≠ .admin) : w.state.get k = none := by
  obtain ⟨e, admin, -, hinit⟩ := h
  simp only [initializeContract, Tx.ok_bind, ok_load, ok_require, ok_requireAuth, ok_save] at hinit
  obtain ⟨_, _, ⟨rfl, rfl⟩, _, _, ⟨-, rfl⟩, _, _, ⟨-, rfl⟩, hw⟩ := hinit
  rw [← hw, Store.get_put_of_ne hk]
  rfl

theorem Step.sha256 {k : Event} (h : Step w k w') : w'.sha256 = w.sha256 := by
  cases h
  rfl

theorem Reachable.step {k : Event} (h : Reachable w) (hstep : Step w k w') : Reachable w' := by
  obtain ⟨w₀, ks, h₀, hrun⟩ := h
  exact ⟨w₀, k :: ks, h₀, .next hrun hstep⟩

theorem Reachable.run (h : Reachable w) (hrun : Run Step w ks w') : Reachable w' :=
  hrun.invariant h fun _ _ _ hw hstep => hw.step hstep

theorem Reachable.of_genesis (h : Genesis w) : Reachable w := ⟨w, [], h, .start⟩

/-- What holds at first and is kept by every call holds in every reachable state. -/
theorem reachable_invariant {I : State → Prop} (h : Reachable w)
    (hstart : ∀ w, Genesis w → I w.state)
    (hcall : ∀ {s e c}, I s → wp (exec c) (fun _ t => I t) e s) : I w.state := by
  obtain ⟨w₀, ks, h₀, hrun⟩ := h
  refine hrun.invariant (I := fun w => I w.state) (hstart w₀ h₀) ?_
  rintro w k w' hw hstep
  cases hstep with
  | call _ _ hexec => exact hcall hw _ _ hexec

end Systems

/-! ## Playing a sequence of calls -/

/-- The bytes that fit, and how many there were. -/
def tinyHash (bytes : Bytes) : Bytes32 :=
  Vector.ofFn fun i => if i.val = 31 then UInt8.ofNat bytes.length else bytes.getD i 0

/-- A call signed by the given addresses; no bundle decodes. -/
def signedBy (signers : List Address) (now : Nat) : Env where
  timestamp := min now u64Max
  timestamp_le := Nat.min_le_right _ _
  authorized a := decide (a ∈ signers)
  sha256 := tinyHash
  fromXdr _ := none

/-- Runs the calls one after the other, as long as they succeed. -/
def play : World → List (List Address × Nat × Call) → Option World
  | w, [] => some w
  | w, (signers, now, c) :: rest =>
      if w.clock ≤ (signedBy signers now).timestamp then
        match exec c (signedBy signers now) w.state with
        | .ok (_, t) => play ⟨t, (signedBy signers now).timestamp, w.sha256⟩ rest
        | .error _ => none
      else none

/-- The events of a sequence of calls, newest first. -/
def eventsOf (calls : List (List Address × Nat × Call)) : List Event :=
  (calls.map fun p => Event.mk (signedBy p.1 p.2.1) p.2.2).reverse

theorem run_of_play {w w' : World} {calls : List (List Address × Nat × Call)}
    (hsha : w.sha256 = tinyHash) (h : play w calls = some w') :
    Run Step w (eventsOf calls) w' ∧ w'.sha256 = tinyHash := by
  induction calls generalizing w with
  | nil =>
      obtain rfl : w = w' := by simpa [play] using h
      exact ⟨.start, hsha⟩
  | cons p rest ih =>
      obtain ⟨signers, now, c⟩ := p
      simp only [play] at h
      split at h
      · next hclock =>
          cases hexec : exec c (signedBy signers now) w.state with
          | error _ => simp [hexec] at h
          | ok r =>
              obtain ⟨_, t⟩ := r
              simp only [hexec] at h
              obtain ⟨hrest, hw'⟩ := ih (w := ⟨t, _, w.sha256⟩) hsha h
              refine ⟨?_, hw'⟩
              rw [show eventsOf ((signers, now, c) :: rest) =
                eventsOf rest ++ [⟨signedBy signers now, c⟩] by simp [eventsOf]]
              exact Run.trans (.next .start (.call hclock hsha.symm hexec)) hrest
      · cases h

/-- The contract as `admin` has initialised it. -/
def initialised (admin : Address) : World where
  state := Store.empty.put .admin admin
  clock := 0
  sha256 := tinyHash

theorem genesis_initialised (admin : Address) : Genesis (initialised admin) := by
  refine ⟨signedBy [admin] 0, admin, by simp [signedBy, initialised], ?_⟩
  simp only [initializeContract, Tx.ok_bind, ok_load, ok_require, ok_requireAuth, ok_save]
  exact ⟨none, _, ⟨rfl, rfl⟩, (), _, ⟨rfl, rfl⟩, (), _, ⟨by simp [signedBy], rfl⟩, rfl⟩

theorem reachable_of_play {admin : Address} {calls : List (List Address × Nat × Call)} {w : World}
    (h : play (initialised admin) calls = some w) : Reachable w :=
  ⟨_, _, genesis_initialised admin, (run_of_play (w := initialised admin) rfl h).1⟩

end Heirloom.Verifier
