import Heirloom.Modules.Anchoring

/-!
# The lives of anchored credentials

An anchor is looked up together with the state of its credential. Anyone may anchor a credential
and remove an anchor; only the admin moves a credential to another state.

Results:
1. `verified_iff`: in every run, a pair is found for a credential exactly when the last call about
   the key of the pair has anchored that credential, and the last move of the credential has
   activated it. The admin has signed every move.
2. `life_iff`: from which state a credential gets to which in the runs of the contract; and once
   it has expired, or has been revoked or archived, no lookup finds it any more.
-/

namespace Heirloom.Modules.Anchoring

open Transaction TypedStore Runs

/-! ## What calls say -/

/-- The state that a call moves credential `c` to. -/
def Call.moves (c : Nat) : Call → Option CredentialState
  | .transitionCredential _ credentialId newState =>
      if credentialId = c then some newState else none
  | _ => none

/-- What a call leaves under a key of the reverse lookup, if it is about that key. -/
def Call.binds (key : Bytes) : Call → Option (Option Nat)
  | .createCredentialAnchor _ credentialId externalId system =>
      if compositeKey externalId system = key then some (some credentialId) else none
  | .removeCredentialAnchor _ _ externalId system =>
      if compositeKey externalId system = key then some none else none
  | _ => none

/-- The last move of a credential. -/
def movedTo (c : Nat) (ks : List (Env × Call)) : Option CredentialState :=
  ks.findSome? fun k => k.2.moves c

/-- What the last call about a key has left there. -/
def boundTo (key : Bytes) (ks : List (Env × Call)) : Option Nat :=
  (ks.findSome? fun k => k.2.binds key).join

/-- The caller and the admin have signed the call, and the contract is not paused. -/
def Admitted (e : Env) (caller : Address) : Prop :=
  ((e.contract.get .paused : Option Bool).getD false = false ∧ e.authorized caller = true) ∧
    ∃ admin, e.contract.get .admin = some admin ∧ e.authorized admin = true

section Steps

variable {s t : State} {e : Env} {caller : Address} {c i : Nat} {newState : CredentialState}
  {k : Env × Call} {key : Bytes}

theorem ok_requireAdmin {u : Unit} :
    (requireAdmin caller : Routine AnchorKey.Value Unit) e s = .ok (u, t) ↔
      Admitted e caller ∧ s = t := by
  simp only [requireAdmin, Tx.ok_bind, ok_requireAuth, ok_require, Tx.ok_ask, Tx.ok_fromSome]
  constructor
  · rintro ⟨_, _, ⟨rfl, rfl⟩, _, _, ⟨hpaused, rfl⟩, _, _, ⟨hcaller, rfl⟩, _, _, ⟨rfl, rfl⟩,
      admin, _, ⟨hadmin, rfl⟩, hsigned, rfl⟩
    exact ⟨⟨⟨hpaused, hcaller⟩, admin, hadmin, hsigned⟩, rfl⟩
  · rintro ⟨⟨⟨hpaused, hcaller⟩, admin, hadmin, hsigned⟩, rfl⟩
    exact ⟨_, s, ⟨rfl, rfl⟩, (), s, ⟨hpaused, rfl⟩, (), s, ⟨hcaller, rfl⟩, _, s, ⟨rfl, rfl⟩,
      admin, s, ⟨hadmin, rfl⟩, hsigned, rfl⟩

/-- No transition leads out of a terminal state; the check before the table is not needed. -/
theorem isTerminalState_of_valid (h : isValidTransition (stateOf s c) newState = true) :
    isTerminalState (stateOf s c) = false := by
  cases hstate : stateOf s c <;> rw [hstate] at h <;> first | rfl | cases newState <;> cases h

theorem transitionCredentialState_eq : transitionCredentialState c newState e s = .ok
    (if isValidTransition (stateOf s c) newState = true then
      (true, (s.put (.credentialState c) newState).put (.stateTransitionTime c) e.timestamp)
    else (false, s)) := by
  have hstate : getCredentialState c e s = .ok (stateOf s c, s) := rfl
  unfold transitionCredentialState
  rw [Tx.bind_of_ok hstate]
  cases hvalid : isValidTransition (stateOf s c) newState with
  | false => simp
  | true =>
      rw [isTerminalState_of_valid hvalid]
      rfl

theorem transition_iff : Step s (e, .transitionCredential caller c newState) t ↔
    Admitted e caller ∧ isValidTransition (stateOf s c) newState = true ∧
      t = (s.put (.credentialState c) newState).put (.stateTransitionTime c) e.timestamp := by
  simp only [Step, exec, Tx.ok_bind, ok_requireAdmin, ok_require, transitionCredentialState_eq]
  constructor
  · rintro ⟨_, _, ⟨hadmitted, rfl⟩, moved, u, hmoved, rfl, rfl⟩
    split at hmoved
    · next hvalid =>
        cases hmoved
        exact ⟨hadmitted, hvalid, rfl⟩
    · cases hmoved
  · rintro ⟨hadmitted, hvalid, rfl⟩
    exact ⟨(), s, ⟨hadmitted, rfl⟩, true, _, by rw [if_pos hvalid], rfl, rfl⟩

/-- Other calls than moves leave the states as they are. -/
theorem stateOf_eq (h : Step s k t)
    (hnot : ∀ caller i newState, k.2 ≠ .transitionCredential caller i newState) :
    stateOf t c = stateOf s c := by
  obtain ⟨e, call⟩ := k
  have hwp : wp (exec call) (fun _ t => stateOf t c = stateOf s c) e s := by
    cases call with
    | createCredentialAnchor caller i externalId system =>
        simp [exec, createCredentialAnchor, stateOf]
    | removeCredentialAnchor caller i externalId system =>
        simp [exec, removeCredentialAnchor, stateOf]
    | initCredential i =>
        simp only [exec, initCredentialState, Tx.wp_bind, Tx.wp_ite, Tx.wp_pure, Tx.wp_ask,
          wp_load, wp_save, wp_require]
        -- a credential without a state counts as a draft, before and after
        refine fun _ => ⟨fun _ => trivial, fun hnone => ?_⟩
        rcases eq_or_ne c i with rfl | hne
        · have hfresh : s.get (.credentialState c) = none := by simpa using hnone
          simp [stateOf, hfresh]
        · simp [stateOf, hne]
    | transitionCredential caller i newState => exact absurd rfl (hnot caller i newState)
  exact hwp () t h

/-- What a call does to the states: it moves the credential that it says. -/
theorem stateOf_step (h : Step s k t) : stateOf t c = (k.2.moves c).getD (stateOf s c) := by
  obtain ⟨e, call⟩ := k
  cases call with
  | createCredentialAnchor caller i externalId system => exact stateOf_eq h fun _ _ _ => by simp
  | removeCredentialAnchor caller i externalId system => exact stateOf_eq h fun _ _ _ => by simp
  | initCredential i => exact stateOf_eq h fun _ _ _ => by simp
  | transitionCredential caller i newState =>
      obtain ⟨-, -, rfl⟩ := transition_iff.mp h
      rcases eq_or_ne i c with rfl | hne
      · simp [stateOf, Call.moves]
      · simp [stateOf, Call.moves, hne, hne.symm]

theorem lookup_step (h : Step s k t) : lookup t key = (k.2.binds key).getD (lookup s key) := by
  obtain ⟨e, call⟩ := k
  cases call with
  | createCredentialAnchor caller i externalId system =>
      rw [(create_ok h).lookup_eq]
      rcases eq_or_ne (compositeKey externalId system) key with rfl | hne
      · simp [Call.binds, pairKey]
      · simp [Call.binds, pairKey, hne, Function.update_of_ne hne.symm]
  | removeCredentialAnchor caller i externalId system =>
      rw [(remove_ok h).lookup_eq]
      rcases eq_or_ne (compositeKey externalId system) key with rfl | hne
      · simp [Call.binds, pairKey]
      · simp [Call.binds, pairKey, hne, Function.update_of_ne hne.symm]
  | initCredential i => rw [(lifecycle_ok rfl h).1]; rfl
  | transitionCredential caller i newState => rw [(lifecycle_ok rfl h).1]; rfl

end Steps

/-! ## Lookups -/

section Runs

variable {s t : State} {e : Env} {c : Nat} {a b d : CredentialState} {ks : List (Env × Call)}

theorem stateOf_run (hrun : Run Step .empty ks s) : stateOf s c = (movedTo c ks).getD .draft := by
  refine hrun.invariantHistory (I := fun ks s => stateOf s c = (movedTo c ks).getD .draft) rfl ?_
  intro ks t k u ht hk
  rw [stateOf_step hk, ht, movedTo, movedTo, List.findSome?_cons]
  cases k.2.moves c <;> rfl

theorem lookup_run {key : Bytes} (hrun : Run Step .empty ks s) : lookup s key = boundTo key ks := by
  refine hrun.invariantHistory (I := fun ks s => lookup s key = boundTo key ks) rfl ?_
  intro ks t k u ht hk
  rw [lookup_step hk, ht, boundTo, boundTo, List.findSome?_cons]
  cases k.2.binds key <;> rfl

theorem admitted_of_run (hrun : Run Step .empty ks s) : ∀ k ∈ ks, ∀ caller c newState,
    k.2 = .transitionCredential caller c newState → Admitted k.1 caller := by
  refine hrun.invariantHistory (I := fun ks _ => ∀ k ∈ ks, ∀ caller c newState,
    k.2 = .transitionCredential caller c newState → Admitted k.1 caller) (by simp) ?_
  rintro ks t ⟨e, call⟩ u ht hk k' hmem caller c newState hcall
  rcases List.mem_cons.mp hmem with rfl | hmem
  · obtain rfl : call = .transitionCredential caller c newState := hcall
    exact (transition_iff.mp hk).1
  · exact ht k' hmem caller c newState hcall

/-- A call that everyone has signed, with address 1 as the admin. -/
def signedByAdmin : Env := ⟨5, fun _ => true, ⟨Store.put .empty .admin ⟨1⟩, ⟨fun _ _ => 0, []⟩⟩⟩

theorem admitted_signedByAdmin : Admitted signedByAdmin ⟨1⟩ := ⟨⟨rfl, rfl⟩, ⟨1⟩, rfl, rfl⟩

/-- In every run, a pair is found for a credential exactly when the last call about its key has
anchored the credential, and the last move of the credential was its activation; and the admin has
signed all moves. -/
theorem verified_iff (hrun : Run Step .empty ks s) :
    (∀ p e c, verifyExternalAnchor p.1 p.2 e s = .ok (some c, s) ↔
      boundTo (pairKey p) ks = some c ∧ movedTo c ks = some .active) ∧
    ∀ k ∈ ks, ∀ caller c newState, k.2 = .transitionCredential caller c newState →
      Admitted k.1 caller := by
  refine ⟨fun p e c => ?_, admitted_of_run hrun⟩
  rw [verifyExternalAnchor_iff, lookup_run hrun, stateOf_run hrun]
  cases hmoved : movedTo c ks with
  | none => simp [isActiveState]
  | some state => simp [isActiveState]

/-- Credential 1 is anchored to `("a", "bc")` and activated, and then it is found. -/
theorem verified_iff_active : ∃ s : State, verifyExternalAnchor [97] [98, 99] signed s =
    .ok (some 1, s) := by
  have hstep : Step anchoredState (signedByAdmin, .transitionCredential ⟨1⟩ 1 .active) _ :=
    transition_iff.mpr ⟨admitted_signedByAdmin, rfl, rfl⟩
  have hrun := Run.next (.next .start step_anchored) hstep
  exact ⟨_, ((verified_iff hrun).1 ([97], [98, 99]) signed 1).mpr ⟨rfl, rfl⟩⟩

/-! ## Lives -/

/-- What a credential can become in the end. -/
def canBecome : CredentialState → CredentialState → Bool
  | .draft, _ => true
  | .active, b | .suspended, b => b ≠ .draft
  | .expired, b => b = .expired ∨ b = .archived ∨ b = .revoked
  | a, b => a = b

theorem canBecome_refl : canBecome a a = true := by
  cases a <;> rfl

theorem canBecome_next (h : canBecome a b = true) (hvalid : isValidTransition b d = true) :
    canBecome a d = true := by
  cases a <;> cases b <;> cases d <;> first
    | rfl
    | exact absurd h Bool.false_ne_true
    | exact absurd hvalid Bool.false_ne_true

/-- What a credential can become it can become in two moves, over active. -/
theorem canBecome_cases (h : canBecome a b = true) : a = b ∨ isValidTransition a b = true ∨
    isValidTransition a .active = true ∧ isValidTransition .active b = true := by
  cases a <;> cases b <;> first
    | exact .inl rfl
    | exact .inr (.inl rfl)
    | exact .inr (.inr ⟨rfl, rfl⟩)
    | exact absurd h Bool.false_ne_true

theorem canBecome_of_run (hrun : Run Step s ks t) :
    canBecome (stateOf s c) (stateOf t c) = true := by
  refine hrun.invariant (I := fun t => canBecome (stateOf s c) (stateOf t c) = true)
    canBecome_refl ?_
  rintro t ⟨e, call⟩ u ht hk
  rw [stateOf_step hk]
  cases hmoves : call.moves c with
  | none => exact ht
  | some newState =>
      cases call with
      | transitionCredential caller i newState' =>
          obtain ⟨rfl, rfl⟩ : i = c ∧ newState' = newState := by simpa [Call.moves] using hmoves
          exact canBecome_next ht (transition_iff.mp hk).2.1
      | createCredentialAnchor caller i externalId system => cases hmoves
      | removeCredentialAnchor caller i externalId system => cases hmoves
      | initCredential i => cases hmoves

/-- The admin makes every move that the table allows. -/
theorem exists_move (hvalid : isValidTransition (stateOf s c) b = true) :
    ∃ k t, Step s k t ∧ stateOf t c = b := by
  have hstep : Step s (signedByAdmin, .transitionCredential ⟨1⟩ c b) _ :=
    transition_iff.mpr ⟨admitted_signedByAdmin, hvalid, rfl⟩
  exact ⟨_, _, hstep, by simp [stateOf_step hstep, Call.moves]⟩

theorem exists_run (h : canBecome (stateOf s c) b = true) :
    ∃ ks t, Run Step s ks t ∧ stateOf t c = b := by
  rcases canBecome_cases h with heq | hvalid | ⟨hactive, hvalid⟩
  · exact ⟨[], s, .start, heq⟩
  · obtain ⟨k, t, hk, ht⟩ := exists_move hvalid
    exact ⟨[k], t, .next .start hk, ht⟩
  · obtain ⟨k, t, hk, ht⟩ := exists_move hactive
    obtain ⟨l, u, hl, hu⟩ := exists_move (s := t) (c := c) (ht ▸ hvalid)
    exact ⟨[l, k], u, .next (.next .start hk) hl, hu⟩

/-- A credential gets from a state to another in some run exactly if `canBecome` says so; and one
that has expired, or has been revoked or archived, is not found by any lookup from then on. -/
theorem life_iff (c : Nat) :
    (∀ a b, (∃ ks s ls t, Run Step .empty ks s ∧ Run Step s ls t ∧ stateOf s c = a ∧
      stateOf t c = b) ↔ canBecome a b = true) ∧
    ∀ s ls t, Run Step s ls t →
      stateOf s c = .expired ∨ stateOf s c = .revoked ∨ stateOf s c = .archived →
      ∀ (p : Pair) e, verifyExternalAnchor p.1 p.2 e t ≠ .ok (some c, t) := by
  refine ⟨fun a b => ⟨?_, fun h => ?_⟩, fun s ls t hrun hgone p e hfound => ?_⟩
  · rintro ⟨ks, s, ls, t, -, hrun, rfl, rfl⟩
    exact canBecome_of_run hrun
  -- from draft everything can be reached, so first a run to `a`
  · obtain ⟨ks, s, hks, rfl⟩ := exists_run (s := .empty) (c := c) (b := a) rfl
    obtain ⟨ls, t, hls, rfl⟩ := exists_run h
    exact ⟨ks, s, ls, t, hks, hls, rfl, rfl⟩
  · have hbecome : canBecome (stateOf s c) (stateOf t c) = true := canBecome_of_run hrun
    have hactive : stateOf t c = .active := by
      simpa [isActiveState] using (verifyExternalAnchor_iff.mp hfound).2
    rw [hactive] at hbecome
    rcases hgone with heq | heq | heq <;> rw [heq] at hbecome <;> cases hbecome

end Runs

end Heirloom.Modules.Anchoring
