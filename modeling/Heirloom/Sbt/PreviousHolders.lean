import Heirloom.Sbt.Metadata

/-!
# Previous holders

A change of owner ends the delegation of a token. It does not touch its recovery codes:
a transfer leaves all of them, and a recovery uses one and leaves the others.

Results:
1. `previous_holder_severed`: what a previous holder has, a delegation or recovery
   codes, is worth nothing after a step, in every run from there on, exactly if the step
   changes no owner of a token that keeps usable codes, and uses no code that is stored
   twice.
2. `previous_holder_recovers`: a holder generates codes and transfers the token, and a
   code takes it back.
-/

namespace Heirloom.Sbt

open Transaction TypedStore Runs

/-! ## Recovery codes -/

/-- The hashes that a call stores when it generates codes. -/
def issued (e : Env) : List Bytes32 :=
  (List.range recoveryCodeCount).map fun n => e.sha256 (e.random n).toList

/-- The hash is one of the stored codes of the token. -/
def Stored (s : State) (id : Nat) (h : Bytes32) : Prop :=
  ∃ codes, s.get (.recoveryCodes id) = some codes ∧ h ∈ codes

/-- Codes have been generated for the token, this one with them. -/
def Issued (ls : List (Env × Call)) (id : Nat) (h : Bytes32) : Prop :=
  ∃ e, (e, Call.generateSbtRecoveryCodes id) ∈ ls ∧ h ∈ issued e

/-- A step on a host with the given hash function. -/
def HashedStep (hash : Bytes → Bytes32) (s : State) (k : Env × Call) (t : State) : Prop :=
  Step s k t ∧ k.1.sha256 = hash

/-- After the step `k` from `s` to `t`, and then the calls `ls`, up to `u`: a token whose
owner `k` has changed has no delegate unless it has been delegated since, and is only
recovered with a code that has been generated since; and a code that `k` has used works
only if it has been generated again. -/
structure Severed (hash : Bytes → Bytes32) (s : State) (k : Env × Call) (t : State)
    (ls : List (Env × Call)) (u : State) : Prop where
  delegate : ∀ id, t.get (.owner id) ≠ s.get (.owner id) →
    ∀ e a, getActiveDelegate id e u = .ok (some a, u) →
      ∃ e' a' duration, (e', .delegateSbtTemporarily id a' duration) ∈ ls
  codes : ∀ id, t.get (.owner id) ≠ s.get (.owner id) →
    ∀ e code newHolder w, e.sha256 = hash →
      recoverSbtWithRecoveryCode id code newHolder e u = .ok (true, w) → Issued ls id (hash code)
  once : ∀ id code newHolder, k.2 = .recoverSbtWithRecoveryCode id code newHolder →
    recoverSbtWithRecoveryCode id code newHolder k.1 s = .ok (true, t) →
      ∀ e code' newHolder' w, e.sha256 = hash → hash code' = hash code →
        recoverSbtWithRecoveryCode id code' newHolder' e u = .ok (true, w) →
          Issued ls id (hash code)

/-- The token has no recovery codes, or is divided and not to be recovered. -/
def Unrecoverable (s : State) (id : Nat) : Prop :=
  ∀ codes, s.get (.recoveryCodes id) = some codes →
    codes = [] ∨ s.get (.fractionalOwnership id) ≠ none

/-- The steps that leave previous holders with nothing: a transfer gives a token to
another only if it is not to be recovered, and a recovery uses the last code or gives the
token to its owner, and does not use a code that is stored twice. -/
def Safe (s : State) (k : Env × Call) : Prop :=
  match k.2 with
  | .batchTransferSbtConditional ids transfers =>
      ∀ id recipient, destination (ids.zip transfers) id = some recipient →
        s.get (.owner id) ≠ some recipient → Unrecoverable s id
  | .recoverSbtWithRecoveryCode id code newHolder =>
      ∀ codes, s.get (.recoveryCodes id) = some codes → k.1.sha256 code ∈ codes →
        (s.get (.owner id) = some newHolder ∨ codes.erase (k.1.sha256 code) = []) ∧
          k.1.sha256 code ∉ codes.erase (k.1.sha256 code)
  | _ => True

section Steps

variable {hash : Bytes → Bytes32} {e : Env} {s t u : State} {c : Call} {k : Env × Call}
  {ls : List (Env × Call)} {id : Nat} {h : Bytes32} {code : Bytes} {newHolder : Address} {b : Bool}

/-! ## What a step does to rights -/

theorem generateSbtRecoveryCodes_wp :
    wp (generateSbtRecoveryCodes id) (fun _ t =>
      (∃ owner, s.get (.owner id) = some owner ∧ e.authorized owner = true) ∧
        t = s.put (.recoveryCodes id) (issued e)) e s := by
  simp only [generateSbtRecoveryCodes, Tx.wp_bind, Tx.wp_pure, Tx.wp_ask, wp_requireOwner, wp_save,
    List.map_map]
  exact fun owner howner hauth => ⟨⟨owner, howner, hauth⟩, rfl⟩

theorem step_generate (hstep : Step s (e, .generateSbtRecoveryCodes id) t) :
    (∃ owner, s.get (.owner id) = some owner ∧ e.authorized owner = true) ∧
      t = s.put (.recoveryCodes id) (issued e) := by
  obtain ⟨codes, u, hgenerate, hu⟩ := Tx.ok_bind.mp hstep
  obtain ⟨-, rfl⟩ := Tx.ok_pure.mp hu
  exact generateSbtRecoveryCodes_wp codes u hgenerate

theorem Attempt.stored (ha : Attempt e s t id code newHolder b) {id' : Nat}
    (ht : Stored t id' h) : Stored s id' h := by
  obtain ⟨codes, attempts, hcodes, ⟨-, -, rfl⟩ | ⟨-, -, rfl⟩⟩ := ha.effect
  · obtain ⟨codes', hcodes', hmem⟩ := ht
    exact ⟨codes', by simpa using hcodes', hmem⟩
  · obtain ⟨codes', hcodes', hmem⟩ := ht
    rw [get_codes_recovered] at hcodes'
    split at hcodes'
    · next heq =>
      obtain rfl := Option.some.inj hcodes'
      exact ⟨codes, heq ▸ hcodes, List.mem_of_mem_erase hmem⟩
    · exact ⟨codes', hcodes', hmem⟩

/-- A step brings no codes to a token but those it generates. -/
theorem Step.stored (hstep : Step s (e, c) t) (ht : Stored t id h) :
    Stored s id h ∨ c = .generateSbtRecoveryCodes id ∧ h ∈ issued e := by
  cases c with
  | generateSbtRecoveryCodes id' =>
      obtain ⟨-, rfl⟩ := step_generate hstep
      obtain ⟨codes, hcodes, hmem⟩ := ht
      by_cases heq : id = id'
      · subst heq
        rw [Store.get_put_self] at hcodes
        exact .inr ⟨rfl, Option.some.inj hcodes ▸ hmem⟩
      · exact .inl ⟨codes, by simpa [heq] using hcodes, hmem⟩
  | recoverSbtWithRecoveryCode id' code newHolder =>
      obtain ⟨b, ha⟩ := step_attempt hstep
      exact .inl (ha.stored ht)
  | _ =>
      obtain ⟨codes, hcodes, hmem⟩ := ht
      rw [hstep.get_eq (k := .recoveryCodes id) (by simp [Call.areas])] at hcodes
      exact .inl ⟨codes, hcodes, hmem⟩

/-- A divided token stays divided. -/
theorem Step.fractional (hstep : Step s (e, c) t)
    (hs : s.get (.fractionalOwnership id) ≠ none) : t.get (.fractionalOwnership id) ≠ none := by
  cases c with
  | createFractionalSbt id' holders fractions =>
      have hwp : wp (exec (.createFractionalSbt id' holders fractions))
          (fun _ t => Store.get t (.fractionalOwnership id) ≠ none) e s := by
        simp only [exec, createFractionalSbt, Tx.wp_bind, Tx.wp_pure, wp_requireOwner,
          Tx.wp_ensure, Tx.wp_ask, wp_save]
        intro _ _ _ _ _ _
        refine Tx.wp_forEach
          (I := fun t : State => Store.get t (.fractionalOwnership id) ≠ none) ?_ ?_
        · intro p _ t ht
          simpa [pushOwnershipHistory] using ht
        · by_cases heq : id = id'
          · subst heq
            simp
          · simpa [heq] using hs
      exact hwp () t hstep
  | _ => rwa [hstep.get_eq (by simp [Call.areas])]

/-- A delegation comes from a call that delegates. -/
theorem Step.delegation (hstep : Step s (e, c) t) (ht : t.get (.delegation id) ≠ none) :
    s.get (.delegation id) ≠ none ∨ ∃ a duration, c = .delegateSbtTemporarily id a duration := by
  cases c with
  | delegateSbtTemporarily id' a duration =>
      by_cases heq : id = id'
      · exact .inr ⟨a, duration, by rw [heq]⟩
      · have hwp : wp (exec (.delegateSbtTemporarily id' a duration))
            (fun _ t => Store.get t (.delegation id) = s.get (.delegation id)) e s := by
          simp [exec, delegateSbtTemporarily, pushDelegationHistory, heq]
        exact .inl (hwp () t hstep ▸ ht)
  | revokeSbtDelegation id' =>
      refine .inl fun hnone => ht ?_
      have hwp : wp (exec (.revokeSbtDelegation id'))
          (fun _ t => Store.get t (.delegation id) = none) e s := by
        by_cases heq : id = id'
        · subst heq
          simp [exec, revokeSbtDelegation, pushDelegationHistory]
        · simp [exec, revokeSbtDelegation, pushDelegationHistory, heq, hnone]
      exact hwp () t hstep
  | batchTransferSbtConditional ids transfers =>
      obtain ⟨rfl, -⟩ := batchTransferSbtConditional_wp () t hstep
      rw [get_delegation_foldl_transferred] at ht
      split at ht
      · exact absurd rfl ht
      · exact .inl ht
  | recoverSbtWithRecoveryCode id' code newHolder =>
      obtain ⟨b, ha⟩ := step_attempt hstep
      obtain ⟨codes, attempts, -, ⟨-, -, rfl⟩ | ⟨-, -, rfl⟩⟩ := ha.effect
      · exact .inl (by simpa using ht)
      · rw [get_delegation_recovered] at ht
        split at ht
        · exact absurd rfl ht
        · exact .inl ht
  | _ =>
      rw [hstep.get_eq (k := .delegation id) (by simp [Call.areas])] at ht
      exact .inl ht

/-! ## What a run does to rights -/

theorem issued_cons (hissued : Issued ls id h) : Issued (k :: ls) id h := by
  obtain ⟨e, he, hh⟩ := hissued
  exact ⟨e, List.mem_cons_of_mem k he, hh⟩

theorem stored_of_run (hrun : Run Step t ls u) (hu : Stored u id h) :
    Stored t id h ∨ Issued ls id h := by
  induction hrun with
  | start => exact .inl hu
  | @next ls s u k _ hk ih =>
      obtain ⟨e, c⟩ := k
      rcases hk.stored hu with hs | ⟨rfl, hissued⟩
      · exact (ih hs).imp_right issued_cons
      · exact .inr ⟨e, List.mem_cons_self, hissued⟩

theorem fractional_of_run (hrun : Run Step t ls u)
    (ht : t.get (.fractionalOwnership id) ≠ none) : u.get (.fractionalOwnership id) ≠ none :=
  hrun.invariant (I := fun s : State => s.get (.fractionalOwnership id) ≠ none) ht
    fun _ _ _ hs hk => hk.fractional hs

theorem delegation_of_run (hrun : Run Step t ls u) (hu : u.get (.delegation id) ≠ none) :
    t.get (.delegation id) ≠ none ∨
      ∃ e a duration, (e, .delegateSbtTemporarily id a duration) ∈ ls := by
  induction hrun with
  | start => exact .inl hu
  | @next ls s u k _ hk ih =>
      obtain ⟨e, c⟩ := k
      rcases hk.delegation hu with hs | ⟨a, duration, rfl⟩
      · refine (ih hs).imp_right fun ⟨e', a, duration, hmem⟩ => ?_
        exact ⟨e', a, duration, List.mem_cons_of_mem _ hmem⟩
      · exact .inr ⟨e, a, duration, List.mem_cons_self⟩

/-- Only tokens have rights attached, and every stored code has been generated. -/
structure Attached (ks : List (Env × Call)) (s : State) : Prop where
  numbered : Numbered s
  delegated : ∀ id, s.get (.delegation id) ≠ none → s.get (.owner id) ≠ none
  stored : ∀ id h, Stored s id h → s.get (.owner id) ≠ none ∧ Issued ks id h

theorem attached_empty : Attached [] .empty := by
  refine ⟨⟨by simp, by simp, by simp⟩, by simp, fun id h hs => ?_⟩
  obtain ⟨codes, hcodes, -⟩ := hs
  cases hcodes

theorem Attached.step {ks : List (Env × Call)} (hs : Attached ks s) (hk : Step s k t) :
    Attached (k :: ks) t := by
  obtain ⟨e, c⟩ := k
  refine ⟨hs.numbered.step hk, fun id hd => ?_, fun id h ht => ?_⟩
  · rcases hk.delegation hd with hold | ⟨a, duration, rfl⟩
    · exact hk.owner_kept (hs.delegated id hold)
    · have hwp : wp (exec (.delegateSbtTemporarily id a duration))
          (fun _ _ => s.get (.owner id) ≠ none) e s := by
        simp +contextual [exec, delegateSbtTemporarily, pushDelegationHistory]
      exact hk.owner_kept (hwp () t hk)
  · rcases hk.stored ht with hold | ⟨rfl, hissued⟩
    · obtain ⟨howner, hbefore⟩ := hs.stored id h hold
      exact ⟨hk.owner_kept howner, issued_cons hbefore⟩
    · obtain ⟨⟨owner, howner, -⟩, -⟩ := step_generate hk
      exact ⟨hk.owner_kept (by simp [howner]), e, List.mem_cons_self, hissued⟩

theorem attached_of_run {ks : List (Env × Call)} (hrun : Run (HashedStep hash) .empty ks s) :
    Attached ks s ∧ ∀ k ∈ ks, k.1.sha256 = hash := by
  refine hrun.invariantHistory (I := fun ks s => Attached ks s ∧ ∀ k ∈ ks, k.1.sha256 = hash)
    ⟨attached_empty, fun k hk => absurd hk List.not_mem_nil⟩ fun ks s t k hs hk => ?_
  exact ⟨hs.1.step hk.1, List.forall_mem_cons.mpr ⟨hk.2, hs.2⟩⟩

theorem getActiveDelegate_some {a : Address}
    (hactive : getActiveDelegate id e s = .ok (some a, t)) :
    s.get (.delegation id) ≠ none := by
  intro hnone
  have hread : getActiveDelegate id e s = .ok (none, s) := by
    rw [getActiveDelegate, Tx.bind_of_ok (ok_load.mpr ⟨hnone, rfl⟩)]
    rfl
  cases hread.symm.trans hactive

/-- A code that works is stored, and the token is not divided. -/
theorem stored_of_recover
    (hrecover : recoverSbtWithRecoveryCode id code newHolder e s = .ok (true, t)) :
    Stored s id (e.sha256 code) ∧ s.get (.fractionalOwnership id) = none := by
  have ha : Attempt e s t id code newHolder true := recoverSbtWithRecoveryCode_wp true t hrecover
  obtain ⟨codes, attempts, hcodes, ⟨hfalse, -⟩ | ⟨-, hmem, -⟩⟩ := ha.effect
  · cases hfalse
  · exact ⟨⟨codes, hcodes, hmem⟩, ha.undivided⟩

/-- A call whose host hashes and draws as `e`, at the end of the window of the token, which
everyone has signed. -/
def laterCall (e : Env) (s : State) (id : Nat) : Env :=
  { e with
    timestamp := ((s.get (.recoveryAttempts id)).map (·.windowStart)).getD 0 +
      recoveryAttemptWindowSeconds
    authorized := fun _ => true }

/-- A stored code of a token that is not divided works. -/
theorem recover_of_stored {ks : List (Env × Call)} (newHolder : Address) (hs : Attached ks s)
    (hhash : ∀ k ∈ ks, k.1.sha256 = hash) (hstored : Stored s id h)
    (hundivided : s.get (.fractionalOwnership id) = none) :
    ∃ e code w, e.sha256 = hash ∧ hash code = h ∧
      recoverSbtWithRecoveryCode id code newHolder e s = .ok (true, w) := by
  obtain ⟨howner, e, he, hissued⟩ := hs.stored id h hstored
  obtain ⟨n, -, rfl⟩ := List.mem_map.mp hissued
  obtain ⟨codes, hcodes, hmem⟩ := hstored
  have hwindow : ∀ attempts, s.get (.recoveryAttempts id) = some attempts →
      recoveryAttemptWindowSeconds ≤ (laterCall e s id).timestamp - attempts.windowStart := by
    intro attempts hattempts
    simp [laterCall, hattempts]
  have hsha := hhash _ he
  exact ⟨laterCall e s id, (e.random n).toList, _, hsha, by rw [← hsha],
    recoverSbtWithRecoveryCode_ok rfl howner hundivided hcodes hmem hwindow⟩

/-- After a safe step nothing is left of a token whose owner it has changed. -/
theorem Safe.cleared {ks : List (Env × Call)} (hs : Attached ks s) (hk : Step s k t)
    (hsafe : Safe s k) (hchanged : t.get (.owner id) ≠ s.get (.owner id)) :
    t.get (.delegation id) = none ∧
      (Stored t id h → t.get (.fractionalOwnership id) ≠ none) := by
  obtain ⟨e, c⟩ := k
  cases step_owner id hk with
  | kept hkept => exact absurd hkept hchanged
  | minted hid hnew =>
      have hnone : s.get (.owner id) = none := hs.numbered.minted id hid.ge
      constructor
      · by_contra hd
        rcases hk.delegation hd with hold | ⟨a, duration, hc⟩
        · exact hs.delegated id hold hnone
        · cases hc
      · intro ht
        rcases hk.stored ht with hold | ⟨hc, -⟩
        · exact absurd hnone (hs.stored id h hold).1
        · cases hc
  | @transferred ids transfers owner recipient howner _ hto hnew =>
      obtain ⟨p, hp, rfl, -⟩ := destination_eq_some hto
      obtain ⟨rfl, -⟩ := batchTransferSbtConditional_wp () t hk
      refine ⟨?_, fun ht => ?_⟩
      · rw [get_delegation_foldl_transferred, if_pos (List.mem_map_of_mem hp)]
      · obtain ⟨codes, hcodes, hmem⟩ := (hk.stored ht).resolve_right fun hc => by cases hc.1
        rw [hnew] at hchanged
        rcases hsafe p.1 recipient hto hchanged.symm codes hcodes with rfl | hdivided
        · cases hmem
        · exact hk.fractional hdivided
  | @recovered code newHolder ha hnew =>
      obtain ⟨codes, attempts, hcodes, ⟨hfalse, -⟩ | ⟨-, hmem, rfl⟩⟩ := ha.effect
      · cases hfalse
      · refine ⟨by rw [get_delegation_recovered, if_pos rfl], fun ht => ?_⟩
        obtain ⟨codes', hcodes', hmem'⟩ := ht
        rw [get_codes_recovered, if_pos rfl] at hcodes'
        obtain rfl := Option.some.inj hcodes'
        rw [hnew] at hchanged
        rcases (hsafe codes hcodes hmem).1 with hsame | hempty
        · exact absurd hsame.symm hchanged
        · rw [hempty] at hmem'
          cases hmem'

/-- A safe step leaves previous holders with nothing. -/
theorem Safe.severed {ks : List (Env × Call)} (hs : Attached ks s) (hk : HashedStep hash s k t)
    (hsafe : Safe s k) (hrun : Run Step t ls u) : Severed hash s k t ls u := by
  constructor
  · intro id hchanged e a hactive
    obtain ⟨hcleared, -⟩ := hsafe.cleared (h := .replicate 32 0) hs hk.1 hchanged
    exact (delegation_of_run hrun (getActiveDelegate_some hactive)).resolve_left
      fun ht => ht hcleared
  · intro id hchanged e code newHolder w hhash hrecover
    obtain ⟨hstored, hundivided⟩ := stored_of_recover hrecover
    rw [hhash] at hstored
    refine (stored_of_run hrun hstored).resolve_left fun ht => ?_
    exact fractional_of_run hrun ((hsafe.cleared hs hk.1 hchanged).2 ht) hundivided
  · intro id code newHolder hcall hused e code' newHolder' w hhash hsame hrecover
    obtain ⟨hstored, -⟩ := stored_of_recover hrecover
    rw [hhash, hsame] at hstored
    refine (stored_of_run hrun hstored).resolve_left fun ht => ?_
    obtain ⟨e₀, c⟩ := k
    obtain rfl : c = _ := hcall
    have ha : Attempt e₀ s t id code newHolder true := recoverSbtWithRecoveryCode_wp true t hused
    obtain ⟨codes, attempts, hcodes, ⟨hfalse, -⟩ | ⟨-, hmem, rfl⟩⟩ := ha.effect
    · cases hfalse
    · obtain ⟨codes', hcodes', hmem'⟩ := ht
      rw [get_codes_recovered, if_pos rfl] at hcodes'
      obtain rfl := Option.some.inj hcodes'
      rw [← hk.2] at hmem'
      exact (hsafe codes hcodes hmem).2 hmem'

/-- A step after which a code works that has not been generated since is not safe. -/
theorem safe_of_severed {ks : List (Env × Call)} (hs : Attached ks s)
    (hhash : ∀ k ∈ ks, k.1.sha256 = hash) (hk : HashedStep hash s k t)
    (hsevered : Severed hash s k t [] t) : Safe s k := by
  have ht := hs.step hk.1
  have hhash' : ∀ k' ∈ k :: ks, k'.1.sha256 = hash := List.forall_mem_cons.mpr ⟨hk.2, hhash⟩
  have hnone : ∀ id h, t.get (.owner id) ≠ s.get (.owner id) → Stored t id h →
      t.get (.fractionalOwnership id) ≠ none := by
    intro id h hchanged hstored hundivided
    obtain ⟨e, code, w, he, -, hrecover⟩ :=
      recover_of_stored ⟨0⟩ ht hhash' hstored hundivided
    obtain ⟨_, hmem, -⟩ := hsevered.codes id hchanged e code ⟨0⟩ w he hrecover
    cases hmem
  obtain ⟨e, c⟩ := k
  cases c with
  | batchTransferSbtConditional ids transfers =>
      intro id recipient hto hne codes hcodes
      by_contra hkept
      obtain ⟨hfull, hdivided⟩ := not_or.mp hkept
      obtain ⟨h, hmem⟩ := List.exists_mem_of_ne_nil codes hfull
      obtain ⟨rfl, -⟩ := batchTransferSbtConditional_wp () t hk.1
      refine hnone id h ?_ ⟨codes, ?_, hmem⟩ ?_
      · rw [get_owner_foldl_transferred, hto, Option.some_or]
        exact Ne.symm hne
      · rw [get_foldl_transferred (by simp) (by simp), hcodes]
      · rw [get_foldl_transferred (by simp) (by simp)]
        exact Decidable.not_not.mp hdivided
  | recoverSbtWithRecoveryCode id code newHolder =>
      intro codes hcodes hmem
      obtain ⟨b, u, hrecover, hu⟩ := Tx.ok_bind.mp hk.1
      obtain ⟨-, rfl⟩ := Tx.ok_pure.mp hu
      have ha : Attempt e s u id code newHolder b := recoverSbtWithRecoveryCode_wp b u hrecover
      obtain ⟨codes', attempts, hcodes', ⟨-, hnew, -⟩ | ⟨rfl, -, rfl⟩⟩ := ha.effect
      · obtain rfl := Option.some.inj (hcodes.symm.trans hcodes')
        exact absurd hmem hnew
      obtain rfl := Option.some.inj (hcodes.symm.trans hcodes')
      have hleft : ∀ h, h ∈ codes.erase (e.sha256 code) →
          Stored (recovered s id attempts codes (e.sha256 code) newHolder) id h :=
        fun h hmem => ⟨_, by rw [get_codes_recovered, if_pos rfl], hmem⟩
      have hundivided : (recovered s id attempts codes (e.sha256 code) newHolder).get
          (.fractionalOwnership id) = none := by
        rw [hk.1.get_eq (k := .fractionalOwnership id) (by simp [Call.areas])]
        exact ha.undivided
      constructor
      · by_contra hkept
        obtain ⟨hother, hfull⟩ := not_or.mp hkept
        obtain ⟨h, hmem'⟩ := List.exists_mem_of_ne_nil _ hfull
        refine hnone id h ?_ (hleft h hmem') hundivided
        rw [get_owner_recovered, if_pos rfl]
        exact Ne.symm hother
      · intro hagain
        obtain ⟨e', code', w, he', hsame, hrecover'⟩ :=
          recover_of_stored newHolder ht hhash' (hleft _ hagain) hundivided
        rw [hk.2] at hsame
        obtain ⟨_, hmem', -⟩ := hsevered.once id code newHolder rfl hrecover e' code' newHolder w
          he' hsame hrecover'
        cases hmem'
  | _ => trivial

theorem Safe.severed_iff {ks : List (Env × Call)} (hrun : Run (HashedStep hash) .empty ks s)
    (hk : HashedStep hash s k t) :
    (∀ ls u, Run (HashedStep hash) t ls u → Severed hash s k t ls u) ↔ Safe s k := by
  obtain ⟨hs, hhash⟩ := attached_of_run hrun
  constructor
  · exact fun h => safe_of_severed hs hhash hk (h [] t .start)
  · exact fun hsafe ls u hafter => hsafe.severed hs hk (hafter.mono fun _ _ _ h => h.1)

/-- In every run of safe steps, what a holder has is worth nothing after each step that
changes the owner, up to any later state; a step leaves nothing exactly if it is safe.
Codes and delegations are made by the owner. -/
theorem previous_holder_severed (hash : Bytes → Bytes32) :
    (∀ ks s k t ls u, Run (Guarded (HashedStep hash) Safe) .empty ks s →
      Guarded (HashedStep hash) Safe s k t → Run (Guarded (HashedStep hash) Safe) t ls u →
      Severed hash s k t ls u) ∧
    (∀ ks s k t, Run (HashedStep hash) .empty ks s → HashedStep hash s k t →
      ((∀ ls u, Run (HashedStep hash) t ls u → Severed hash s k t ls u) ↔ Safe s k)) ∧
    ∀ e s t id, Step s (e, .generateSbtRecoveryCodes id) t ∨
        (∃ a duration, Step s (e, .delegateSbtTemporarily id a duration) t) →
      ∃ owner, s.get (.owner id) = some owner ∧ e.authorized owner = true := by
  refine ⟨fun ks s k t ls u hrun hk hafter => ?_, fun ks s k t hrun hk => Safe.severed_iff hrun hk,
    fun e s t id hcall => ?_⟩
  · exact (Safe.severed_iff hrun.unguard hk.1).mpr hk.2 ls u hafter.unguard
  · rcases hcall with hgenerate | ⟨a, duration, hdelegate⟩
    · exact (step_generate hgenerate).1
    · have hwp : wp (exec (.delegateSbtTemporarily id a duration)) (fun _ _ =>
          ∃ owner, s.get (.owner id) = some owner ∧ e.authorized owner = true) e s := by
        simp only [exec, delegateSbtTemporarily, pushDelegationHistory, Tx.wp_bind, Tx.wp_ensure,
          Tx.wp_ask, wp_requireOwner, wp_load, wp_save]
        exact fun owner howner hauth _ _ => ⟨owner, howner, hauth⟩
      exact hwp () t hdelegate

end Steps

/-! ## A code that takes a token back -/

/-- A host at time 0 that hashes a code to itself and draws the codes 0, 1 and so on. -/
def host : Env where
  timestamp := 0
  authorized := fun _ => true
  ownerOf := fun _ _ => none
  sha256 := fun bytes => .ofFn fun i => bytes.getD i 0
  random := fun n => .replicate 32 (UInt8.ofNat n)

/-- Token 0 of holder 9. -/
def heldState : State := withToken initialisedState 0 ⟨9⟩ [65] 0

/-- The holder has recovery codes. -/
def codedState : State := heldState.put (.recoveryCodes 0) (issued host)

/-- The transfer of token 0 to holder 7. -/
def sale : Call := .batchTransferSbtConditional [0] [⟨⟨7⟩, .always⟩]

/-- The token after its transfer. -/
def soldState (s : State) : State := (s.put (.owner 0) ⟨7⟩).erase (.delegation 0)

theorem run_heldState : Run (HashedStep host.sha256) .empty
    [(host, .mint ⟨9⟩ [65]), (host, .initializeContract ⟨8⟩)] heldState := by
  have hinit : Step .empty (host, .initializeContract ⟨8⟩) initialisedState := rfl
  have hmint : Step initialisedState (host, .mint ⟨9⟩ [65]) heldState := rfl
  exact .next (.next .start ⟨hinit, rfl⟩) ⟨hmint, rfl⟩

/-- A token without codes is transferred. -/
theorem previous_holder_severed_run :
    Severed host.sha256 heldState (host, sale) (soldState heldState) [] (soldState heldState) := by
  have hsale : Step heldState (host, sale) (soldState heldState) := rfl
  have hsafe : Safe heldState (host, sale) := by
    intro id recipient _ _ codes hcodes
    cases hcodes
  exact ((previous_holder_severed host.sha256).2.1 _ _ _ _ run_heldState ⟨hsale, rfl⟩).mpr hsafe
    [] _ .start

/-- The holder of a token generates codes and transfers the token; the first of the codes
takes it back. -/
theorem previous_holder_recovers :
    Run (HashedStep host.sha256) .empty
        [(host, sale), (host, .generateSbtRecoveryCodes 0), (host, .mint ⟨9⟩ [65]),
          (host, .initializeContract ⟨8⟩)] (soldState codedState) ∧
      (soldState codedState).get (.owner 0) = some ⟨7⟩ ∧
      ∃ w, recoverSbtWithRecoveryCode 0 (host.random 0).toList ⟨9⟩ host (soldState codedState) =
          .ok (true, w) ∧ w.get (.owner 0) = some ⟨9⟩ := by
  have hgenerate : Step heldState (host, .generateSbtRecoveryCodes 0) codedState := rfl
  have hsale : Step codedState (host, sale) (soldState codedState) := rfl
  refine ⟨(run_heldState.next ⟨hgenerate, rfl⟩).next ⟨hsale, rfl⟩, rfl, _,
    recoverSbtWithRecoveryCode_ok rfl (Option.some_ne_none _) rfl rfl ?_ ?_, ?_⟩
  · exact List.mem_map.mpr ⟨0, by decide, rfl⟩
  · intro attempts hattempts
    cases hattempts
  · rw [get_owner_recovered, if_pos rfl]

end Heirloom.Sbt
