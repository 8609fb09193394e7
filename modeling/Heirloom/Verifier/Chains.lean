import Heirloom.Lib.Forest
import Heirloom.Verifier.Registry

/-!
# Chains of derived credentials

A derived credential has a parent, whose chain is walked when the credential is
derived and has at most `maxCredentialChainDepth` hops then. Nothing looks at the
credentials below: a root that already has descendants can be derived later, which
closes a cycle or makes their chains longer than that.

* `validateFrom_ok`, `getCredentialChain_ok`, `isCredentialChainValid_ok`: what the
  walks see of a chain. The last one does not look at an ancestor that is
  `maxCredentialChainDepth + 1` hops away.
* `chains_bounded_iff`: in every run in which no chain gets too long by deriving a
  credential that others are derived from, chains are bounded and queries see all of
  them, but for the one ancestor that the last walk leaves out.
* `rederived_root_cycle`: a run with a cycle.
-/

namespace Heirloom.Verifier

open Transaction TypedStore Runs Forest

/-- The credential `n` hops above `c`. -/
def State.ancestor (s : State) (n c : Nat) : Option Nat := climb s.parent n c

/-- No chain has more than `maxCredentialChainDepth + 1` hops. -/
def Bounded (s : State) : Prop := ∀ c, s.ancestor (maxCredentialChainDepth + 2) c = none

/-- Only known credentials have parents, which are known. -/
def Rooted (s : State) : Prop :=
  ∀ c p, s.parent c = some p → (s.hashes c).isSome = true ∧ (s.hashes p).isSome = true

/-- If a credential that was attested before is derived, and has no parent yet, then it is
not in the chain of its new parent, and no chain through it gets too long. -/
def Call.KeepsChains (s : State) (e : Env) : Call → Prop
  | .createDerivedCredential _ parentId proof claim =>
      ∀ r, s.attestation (e.sha256 proof) (e.sha256 claim) = some r →
        s.parent r.credentialId = none →
        (∀ n, s.ancestor n parentId ≠ some r.credentialId) ∧
        ∀ c n m b, s.ancestor n c = some r.credentialId → s.ancestor m parentId = some b →
          n + 1 + m ≤ maxCredentialChainDepth + 1
  | _ => True

section Walks

variable {e : Env} {s t : State} {fuel current depth c : Nat}

/-- A chain that has been validated has no more hops than the walk has left. -/
theorem validateFrom_ok {u : Unit} (h : validateFrom fuel current depth e s = .ok (u, t))
    (hdepth : depth ≤ maxCredentialChainDepth) {n b : Nat} (hn : s.ancestor n current = some b) :
    depth + n ≤ maxCredentialChainDepth := by
  induction fuel generalizing current depth n with
  | zero => simp [validateFrom] at h
  | succ fuel ih =>
      cases n with
      | zero => exact hdepth
      | succ n =>
          simp only [validateFrom, Tx.ok_bind, isCredentialInvalidated_ok, ok_require, loadParent,
            ok_load, Tx.ok_ifSome] at h
          obtain ⟨_, _, ⟨-, rfl⟩, _, _, ⟨-, rfl⟩, o, _, ⟨ho, rfl⟩, hrest⟩ := h
          rw [State.ancestor, climb_succ, Option.bind_eq_some_iff] at hn
          obtain ⟨p, hp, hn⟩ := hn
          obtain rfl : o = some p := ho.symm.trans hp
          rcases hrest with ⟨p', hp', _, _, ⟨hdeep, rfl⟩, hrest⟩ | ⟨hnone, -⟩
          · obtain rfl := Option.some.inj hp'
            have := ih hrest hdeep hn
            omega
          · cases hnone

/-- The walk up a chain, as far as the fuel goes. -/
theorem ancestorsFrom_ok (fuel current depth : Nat)
    (hfuel : fuel + depth = maxCredentialChainDepth + 1) :
    ∃ l, ancestorsFrom fuel current depth e s = .ok (l, s) ∧
      ∀ n, l[n]? = if n < fuel then s.ancestor (n + 1) current else none := by
  induction fuel generalizing current depth with
  | zero => exact ⟨[], rfl, by simp⟩
  | succ fuel ih =>
      cases hp : s.parent current with
      | none =>
          refine ⟨[], ?_, fun n => by simp [State.ancestor, climb_succ, hp]⟩
          simp only [ancestorsFrom, loadParent, Tx.ok_bind, ok_load, Tx.ok_ifSomeElse]
          exact ⟨none, s, ⟨hp, rfl⟩, .inr ⟨rfl, rfl⟩⟩
      | some p =>
          obtain ⟨l, hl, hget⟩ := ih p (depth + 1) (by omega)
          refine ⟨p :: l, ?_, fun n => ?_⟩
          · simp only [ancestorsFrom, loadParent, Tx.ok_bind, ok_load, Tx.ok_ifSomeElse, Tx.ok_pure]
            refine ⟨some p, s, ⟨hp, rfl⟩, .inl ⟨p, rfl, ?_⟩⟩
            split
            · obtain rfl : fuel = 0 := by omega
              exact Tx.ok_bind.mpr ⟨l, s, hl, rfl⟩
            · exact Tx.ok_bind.mpr ⟨l, s, hl, rfl⟩
          · cases n with
            | zero => simp [State.ancestor, climb_succ, hp]
            | succ n =>
                rw [List.getElem?_cons_succ, hget n]
                simp [State.ancestor, climb_succ (n := n + 1), hp]

/-- The chain that `get_credential_chain` returns. -/
theorem getCredentialChain_ok : ∃ l, getCredentialChain c e s = .ok (l, s) ∧
    ∀ n, l[n]? = if n ≤ maxCredentialChainDepth + 1 then s.ancestor n c else none := by
  obtain ⟨l, hl, hget⟩ := ancestorsFrom_ok (e := e) (s := s) (maxCredentialChainDepth + 1) c 0 rfl
  refine ⟨c :: l, ?_, fun n => ?_⟩
  · simp only [getCredentialChain, Tx.ok_bind, Tx.ok_pure]
    exact ⟨l, s, hl, rfl, rfl⟩
  · cases n with
    | zero => simp [State.ancestor]
    | succ n =>
        rw [List.getElem?_cons_succ, hget n]
        simp

theorem chainValidFrom_ok (fuel current depth : Nat)
    (hfuel : fuel + depth = maxCredentialChainDepth + 1) :
    ∃ b, chainValidFrom fuel current depth e s = .ok (b, s) ∧
      (b = true ↔ ∀ n < fuel, ∀ a, s.ancestor n current = some a → s.invalidated a = false) := by
  induction fuel generalizing current depth with
  | zero => exact ⟨true, rfl, by simp⟩
  | succ fuel ih =>
      cases hflag : s.invalidated current with
      | true =>
          refine ⟨false, by simp [chainValidFrom, hflag], ?_⟩
          simp only [Bool.false_eq_true, false_iff, not_forall]
          exact ⟨0, by omega, current, rfl, by simp [hflag]⟩
      | false =>
          cases hp : s.parent current with
          | none =>
              have hget : s.get (.credentialParent current) = none := hp
              refine ⟨true, by simp [chainValidFrom, loadParent, hflag, hget], ?_⟩
              simp only [true_iff]
              rintro (_ | n) - a ha
              · obtain rfl : current = a := by simpa [State.ancestor] using ha
                exact hflag
              · simp [State.ancestor, climb_succ, hp] at ha
          | some p =>
              obtain ⟨b, hb, hvalid⟩ := ih p (depth + 1) (by omega)
              have hget : s.get (.credentialParent current) = some p := hp
              have hstep : ∀ n, s.ancestor (n + 1) current = s.ancestor n p := fun n => by
                simp [State.ancestor, climb_succ, hp]
              refine ⟨b, ?_, ?_⟩
              · rw [chainValidFrom]
                refine Tx.ok_bind.mpr ⟨false, s, by simp [hflag], ?_⟩
                simp only [Bool.false_eq_true, if_false]
                refine Tx.ok_bind.mpr ⟨some p, s, by simp [loadParent, hget], ?_⟩
                refine Tx.ok_ifSomeElse.mpr (.inl ⟨p, rfl, ?_⟩)
                split
                · obtain rfl : fuel = 0 := by omega
                  exact hb
                · exact hb
              · rw [hvalid]
                constructor
                · rintro hall (_ | n) hn a ha
                  · obtain rfl : current = a := by simpa [State.ancestor] using ha
                    exact hflag
                  · exact hall n (by omega) a (hstep n ▸ ha)
                · intro hall n hn a ha
                  exact hall (n + 1) (by omega) a ((hstep n).trans ha)

/-- `is_credential_chain_valid` looks at a credential and its ancestors up to
`maxCredentialChainDepth` hops away. -/
theorem isCredentialChainValid_ok : ∃ b, isCredentialChainValid c e s = .ok (b, s) ∧
    (b = true ↔ ∀ n ≤ maxCredentialChainDepth, ∀ a, s.ancestor n c = some a →
      s.invalidated a = false) := by
  obtain ⟨b, hb, hvalid⟩ :=
    chainValidFrom_ok (e := e) (s := s) (maxCredentialChainDepth + 1) c 0 rfl
  exact ⟨b, hb, by simpa only [Nat.lt_succ_iff] using hvalid⟩

end Walks

section Steps

variable {e : Env} {s t : State} {k : Call} {oracle : Address} {p c : Bytes32} {id parentId : Nat}

theorem Attests.known (h : Attests e oracle p c id s t) (hs : Registry s) :
    (t.hashes id).isSome = true := by
  simp [(h.registry hs).named p c _ h.own]

/-- A credential that nobody knows is in no chain but its own. -/
theorem Rooted.eq_zero_of_unknown (h : Rooted s) (hid : s.hashes id = none) {n a : Nat}
    (hn : s.ancestor n a = some id) : n = 0 := by
  cases n with
  | zero => rfl
  | succ n =>
      obtain ⟨b, -, hb⟩ := climb_succ_last hn
      simpa [hid] using (h b id hb).2

/-- Deriving a credential is adding an edge, or nothing if the edge is there. -/
theorem Derives.parent_eq (h : Derives e oracle parentId p c id s t) :
    t.parent = Function.update s.parent id (some parentId) := by
  funext i
  rw [h.parents i]
  by_cases hi : i = id
  · rw [if_pos hi, hi, Function.update_self]
  · rw [if_neg hi, Function.update_of_ne hi]

theorem Derives.bounded (h : Derives e oracle parentId p c id s t) (hs : Registry s)
    (hrooted : Rooted s) (hbounded : Bounded s)
    (hkeeps : ∀ r, s.attestation p c = some r → s.parent r.credentialId = none →
      (∀ n, s.ancestor n parentId ≠ some r.credentialId) ∧
      ∀ c n m b, s.ancestor n c = some r.credentialId → s.ancestor m parentId = some b →
        n + 1 + m ≤ maxCredentialChainDepth + 1) : Bounded t := by
  intro a
  rw [State.ancestor, h.parent_eq]
  rcases h.before with hnone | hsame
  · have hchain : (∀ n, s.ancestor n parentId ≠ some id) ∧
        ∀ c n m b, s.ancestor n c = some id → s.ancestor m parentId = some b →
          n + 1 + m ≤ maxCredentialChainDepth + 1 := by
      cases h.minted with
      | reused r hr hid => exact hid ▸ hkeeps r hr (hid ▸ hnone)
      | fresh _ hid =>
          -- nothing has been derived from a new credential
          have hunknown : s.hashes id = none := by
            rw [← Option.not_isSome_iff_eq_none, hs.numbered]
            omega
          refine ⟨fun n hn => ?_, fun c n m b hn hm => ?_⟩
          · obtain rfl := hrooted.eq_zero_of_unknown hunknown hn
            exact h.apart (Option.some.inj hn).symm
          · have hzero := hrooted.eq_zero_of_unknown hunknown hn
            have hdepth := validateFrom_ok h.valid (Nat.zero_le _) hm
            omega
    refine climb_link_eq_none hbounded hchain.1 fun c i j b hi hj => ?_
    have := hchain.2 c i j b hi hj
    omega
  · rw [Function.update_eq_self_iff.mpr hsame.symm]
    exact hbounded a

theorem Derives.rooted (h : Derives e oracle parentId p c id s t) (hs : Registry s)
    (hrooted : Rooted s) (hkept : ∀ i x, s.hashes i = some x → t.hashes i = some x) : Rooted t := by
  have hknown : ∀ i, (s.hashes i).isSome = true → (t.hashes i).isSome = true := fun i hi => by
    obtain ⟨x, hx⟩ := Option.isSome_iff_exists.mp hi
    simp [hkept i x hx]
  intro a b hab
  rw [h.parents a] at hab
  split at hab
  · next heq =>
      obtain rfl := Option.some.inj hab
      exact ⟨heq ▸ h.toAttests.known hs, hknown _ h.known⟩
  · exact ⟨hknown a (hrooted a b hab).1, hknown b (hrooted a b hab).2⟩

/-- What a call does to the parents: nothing, or it derives a credential. -/
theorem exec_chains (hs : Registry s) (hrooted : Rooted s) (hbounded : Bounded s)
    (hkeeps : k.KeepsChains s e) : wp (exec k) (fun _ t => Rooted t ∧ Bounded t) e s := by
  have hsame : .parents ∉ k.areas → wp (exec k) (fun _ t => Rooted t ∧ Bounded t) e s := by
    intro hparents
    refine Tx.wp_mono (Tx.wp_and (exec_frame k) (exec_hashes hs)) ?_
    rintro _ t ⟨hframe, hkept⟩
    have hparent : t.parent = s.parent := funext fun i => hframe.parent hparents
    have hknown : ∀ i, (s.hashes i).isSome = true → (t.hashes i).isSome = true := fun i hi => by
      obtain ⟨x, hx⟩ := Option.isSome_iff_exists.mp hi
      simp [hkept i x hx]
    refine ⟨fun a b hab => ?_, fun a => ?_⟩
    · rw [hparent] at hab
      exact ⟨hknown a (hrooted a b hab).1, hknown b (hrooted a b hab).2⟩
    · rw [State.ancestor, hparent]
      exact hbounded a
  cases k with
  | createDerivedCredential a i p c =>
      refine Tx.wp_mono (Tx.wp_and (exec_hashes hs) (exec_derives a i p c)) ?_
      rintro _ t ⟨hkept, ⟨id, hderives⟩, -⟩
      exact ⟨hderives.rooted hs hrooted hkept, hderives.bounded hs hrooted hbounded hkeeps⟩
  | _ => exact hsame (by simp [Call.areas])

end Steps

/-! ## Runs -/

section Runs

variable {w w₀ : World} {ks : List Event}

theorem bounded_of_run (h₀ : Genesis w₀)
    (hrun : Run (Guarded Step (OnCalls Call.KeepsChains)) w₀ ks w) : Bounded w.state := by
  have hparent : w₀.state.parent = fun _ => none := funext fun i =>
    h₀.get (k := .credentialParent i) (by simp)
  have hstart : Rooted w₀.state ∧ Bounded w₀.state :=
    ⟨fun a b hab => by simp [hparent] at hab,
      fun a => by simp [State.ancestor, climb_succ, hparent]⟩
  refine (hrun.invariant (I := fun v => Reachable v ∧ Rooted v.state ∧ Bounded v.state)
    ⟨.of_genesis h₀, hstart⟩ ?_).2.2
  rintro v k v' ⟨hv, hrooted, hbounded⟩ ⟨hstep, hkeeps⟩
  refine ⟨hv.step hstep, ?_⟩
  cases hstep with
  | call _ _ hexec => exact exec_chains hv.registry hrooted hbounded hkeeps _ _ hexec

/-- In every run in which no chain gets too long by deriving a credential that others are
derived from, no credential is above itself, no chain has more than
`maxCredentialChainDepth + 1` hops, `get_credential_chain` returns the whole chain, and
`is_credential_chain_valid` says whether all of it is valid, unless the chain has this
many hops and its root is the only invalidated credential in it. -/
theorem chains_bounded_iff (h₀ : Genesis w₀)
    (hrun : Run (Guarded Step (OnCalls Call.KeepsChains)) w₀ ks w) (c : Nat) :
    (∀ n, 0 < n → w.state.ancestor n c ≠ some c) ∧
    (∀ n a, w.state.ancestor n c = some a → n ≤ maxCredentialChainDepth + 1) ∧
    (∀ e, ∃ chain, getCredentialChain c e w.state = .ok (chain, w.state) ∧
      ∀ n, chain[n]? = w.state.ancestor n c) ∧
    ∀ e, ∃ valid, isCredentialChainValid c e w.state = .ok (valid, w.state) ∧
      ((valid = true ↔ ∀ n a, w.state.ancestor n c = some a → w.state.invalidated a = false) ↔
        ¬ ((∃ root, w.state.ancestor (maxCredentialChainDepth + 1) c = some root ∧
            w.state.invalidated root = true) ∧
          ∀ n ≤ maxCredentialChainDepth, ∀ a, w.state.ancestor n c = some a →
            w.state.invalidated a = false)) := by
  have hnone := bounded_of_run h₀ hrun c
  have hlong : ∀ n a, w.state.ancestor n c = some a → n ≤ maxCredentialChainDepth + 1 := by
    intro n a hn
    by_contra hlt
    rw [State.ancestor, climb_eq_none_of_le hnone (by omega)] at hn
    cases hn
  refine ⟨fun n hn => climb_ne_self hnone hn, hlong, fun e => ?_, fun e => ?_⟩
  · obtain ⟨chain, hchain, hget⟩ := getCredentialChain_ok (e := e) (s := w.state) (c := c)
    refine ⟨chain, hchain, fun n => ?_⟩
    rw [hget n]
    split
    · rfl
    · next hlt =>
        cases ha : w.state.ancestor n c with
        | none => rfl
        | some a => exact absurd (hlong n a ha) hlt
  · obtain ⟨valid, hvalid, hseen⟩ := isCredentialChainValid_ok (e := e) (s := w.state) (c := c)
    refine ⟨valid, hvalid, ?_⟩
    rw [hseen]
    constructor
    · rintro hiff ⟨⟨root, hroot, hflag⟩, hothers⟩
      simp [hiff.mp hothers _ root hroot] at hflag
    · refine fun hnot => ⟨fun hothers n a hn => ?_, fun hall n _ a hn => hall n a hn⟩
      rcases Nat.lt_or_ge maxCredentialChainDepth n with hfar | hnear
      · obtain rfl : n = maxCredentialChainDepth + 1 := by
          have := hlong n a hn
          omega
        by_contra hflag
        exact hnot ⟨⟨a, hn, by simpa using hflag⟩, hothers⟩
      · exact hothers n hnear a hn

end Runs

/-- The second credential is derived from the first; its chain is the two of them. -/
theorem chains_bounded_pair : ∃ w chain, Reachable w ∧
    getCredentialChain 2 (signedBy [] 9) w.state = .ok (chain, w.state) ∧ chain[1]? = some 1 ∧
    chain[2]? = none := by
  have hplay : (play (initialised ⟨8⟩) [([⟨8⟩], 1, .registerOracle ⟨20⟩),
      ([⟨20⟩], 2, .attest ⟨20⟩ [1] [2])]).any (fun v =>
      decide (v.state.attestation (tinyHash [3]) (tinyHash [4]) = none ∧
        (play v [([⟨20⟩], 3, .createDerivedCredential ⟨20⟩ 1 [3] [4])]).any (fun w =>
          decide (w.state.ancestor 1 2 = some 1 ∧ w.state.ancestor 2 2 = none)) = true)) = true := by
    decide +kernel
  obtain ⟨v, hv, hchecks⟩ := (Option.any_eq_true _ _).mp hplay
  simp only [decide_eq_true_eq, Option.any_eq_true] at hchecks
  obtain ⟨hnew, w, hw, hparent, hroot⟩ := hchecks
  obtain ⟨hfirst, hsha⟩ := run_of_play (w := initialised ⟨8⟩) rfl hv
  obtain ⟨hlast, -⟩ := run_of_play hsha hw
  have hstart := hfirst.guard (C := OnCalls Call.KeepsChains) fun k hk u => by
    simp only [eventsOf, List.map_cons, List.map_nil, List.reverse_cons, List.reverse_nil,
      List.nil_append, List.mem_append, List.mem_singleton] at hk
    rcases hk with rfl | rfl <;> trivial
  have hend := Run.guard_single (C := OnCalls Call.KeepsChains) hlast fun r hr => by
    rw [show (signedBy [⟨20⟩] 3).sha256 = tinyHash from rfl, hnew] at hr
    cases hr
  obtain ⟨-, -, hchain, -⟩ := chains_bounded_iff (genesis_initialised ⟨8⟩) (hstart.trans hend) 2
  obtain ⟨chain, hok, hget⟩ := hchain (signedBy [] 9)
  exact ⟨w, chain, (reachable_of_play hv).run hlast, hok, (hget 1).trans hparent, (hget 2).trans hroot⟩

/-- The second credential is derived from the first, and then the first from the second. -/
theorem rederived_root_cycle : ∃ w, Reachable w ∧ w.state.parent 1 = some 2 ∧
    w.state.parent 2 = some 1 ∧ w.state.ancestor 2 1 = some 1 := by
  have hplay : (play (initialised ⟨8⟩) [([⟨8⟩], 1, .registerOracle ⟨20⟩),
      ([⟨20⟩], 2, .attest ⟨20⟩ [1] [2]), ([⟨20⟩], 3, .createDerivedCredential ⟨20⟩ 1 [3] [4]),
      ([⟨20⟩], 4, .createDerivedCredential ⟨20⟩ 2 [1] [2])]).any (fun w =>
      decide (w.state.parent 1 = some 2 ∧ w.state.parent 2 = some 1 ∧
        w.state.ancestor 2 1 = some 1)) = true := by
    decide +kernel
  obtain ⟨w, hw, hchecks⟩ := (Option.any_eq_true _ _).mp hplay
  exact ⟨w, reachable_of_play hw, of_decide_eq_true hchecks⟩

end Heirloom.Verifier
