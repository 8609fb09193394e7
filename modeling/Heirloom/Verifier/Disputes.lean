import Mathlib.Data.Set.Card
import Heirloom.Verifier.Specs

/-!
# Disputes

A dispute is opened against a credential, registered oracles vote on it, and the
first side to reach the threshold decides it. The contract keeps five things of
it: the record, the pointer to the open dispute of a credential, the votes, the
history, and the flag of a credential that an upheld dispute has invalidated.

* `Settled`: the invariant, which says how these fit together.
* `exec_settled`: every call keeps it, `Opens.settled` and `Votes.settled` being
  the two calls that write any of it.
* `closed_of_run`: a dispute that is closed stays as it is.
* `disputes_decided_once`: all of this, in every reachable state.
-/

namespace Heirloom.Verifier

open Transaction TypedStore Runs

/-- Dispute `d` is one against credential `c`, and has the given status. -/
def State.disputed (s : State) (c : Nat) (status : DisputeStatus) (d : Nat) : Prop :=
  ∃ x, s.dispute d = some x ∧ x.credentialId = c ∧ x.status = status

/-- The addresses that have voted so on dispute `d`. -/
def State.voters (s : State) (d : Nat) (vote : Bool) : Set Address := {a | s.vote d a = some vote}

/-- How the records of the disputes fit together. -/
structure Settled (s : State) : Prop where
  numbered : ∀ d, s.disputeCount < d → s.dispute d = none
  unvoted : ∀ d a, s.dispute d = none → s.vote d a = none
  pointer : ∀ c d, s.openDispute c = some d ↔ s.disputed c .opened d
  votesFor : ∀ d x, s.dispute d = some x → (s.voters d true).encard = x.votesFor
  votesAgainst : ∀ d x, s.dispute d = some x → (s.voters d false).encard = x.votesAgainst
  flag : ∀ c, s.invalidated c = true ↔ ∃ d, s.disputed c .upheld d

section Steps

variable {e : Env} {s t : State} {c d : Nat} {voter initiator : Address} {vote : Bool} {x : Dispute}
  {reason : Bytes} {status : DisputeStatus}

theorem settled_genesis {w : World} (h : Genesis w) : Settled w.state := by
  have hdispute : ∀ d, w.state.dispute d = none := fun d => h.get (k := .disputeRecord d) (by simp)
  have hvote : ∀ d a, w.state.vote d a = none := fun d a =>
    h.get (k := .disputeVote d a) (by simp)
  have hpointer : ∀ c, w.state.openDispute c = none := fun c =>
    h.get (k := .credentialOpenDispute c) (by simp)
  have hflag : ∀ c, w.state.invalidated c = false := fun c => by
    rw [State.invalidated, h.get (by simp)]
    rfl
  refine ⟨fun d _ => hdispute d, fun d a _ => hvote d a, fun c d => ?_, fun d x hx => ?_,
    fun d x hx => ?_, fun c => ?_⟩
  · simp [hpointer, State.disputed, hdispute]
  · simp [hdispute] at hx
  · simp [hdispute] at hx
  · simp [hflag, State.disputed, hdispute]

theorem Settled.congr {areas : List Area} (h : Settled s) (hframe : SameBut areas s t)
    (hdisputes : .disputes ∉ areas) (hflags : .invalidations ∉ areas) : Settled t := by
  have hdispute : ∀ d, t.dispute d = s.dispute d := fun d =>
    hframe.get (k := .disputeRecord d) hdisputes
  have hvote : ∀ d a, t.vote d a = s.vote d a := fun d a =>
    hframe.get (k := .disputeVote d a) hdisputes
  have hpointer : ∀ c, t.openDispute c = s.openDispute c := fun c =>
    hframe.get (k := .credentialOpenDispute c) hdisputes
  have hcount : t.disputeCount = s.disputeCount :=
    congrArg (·.getD 0) (hframe.get (k := .disputeCount) hdisputes)
  have hflag : ∀ c, t.invalidated c = s.invalidated c := fun c => hframe.invalidated hflags
  constructor
  · simpa only [hcount, hdispute] using h.numbered
  · simpa only [hvote, hdispute] using h.unvoted
  · simpa only [hpointer, State.disputed, hdispute] using h.pointer
  · simpa only [State.voters, hvote, hdispute] using h.votesFor
  · simpa only [State.voters, hvote, hdispute] using h.votesAgainst
  · simpa only [hflag, State.disputed, hdispute] using h.flag

/-! ## Opening a dispute -/

theorem Opens.disputed_iff (h : Opens e c d initiator reason s t) {c' d' : Nat} :
    t.disputed c' status d' ↔
      if d' = d then c' = c ∧ status = .opened else s.disputed c' status d' := by
  unfold State.disputed
  rw [h.disputes d']
  split
  · next heq => simp [eq_comm]
  · next heq => rfl

theorem Opens.settled (h : Opens e c d initiator reason s t) (hs : Settled s)
    (hflag : ∀ c, t.invalidated c = s.invalidated c) : Settled t := by
  have hnew : s.dispute d = none := hs.numbered d (by have := h.next; omega)
  have hnot : ∀ c' status, ¬ s.disputed c' status d := by
    rintro c' status ⟨x, hx, -⟩
    simp [hnew] at hx
  have htally : ∀ d' x vote n, t.dispute d' = some x →
      (d' = d → n = 0) → (d' ≠ d → (s.voters d' vote).encard = n) →
      (t.voters d' vote).encard = n := by
    intro d' x vote n hx hzero hold
    have hsame : t.voters d' vote = s.voters d' vote := by
      ext a
      exact iff_of_eq (congrArg (· = some vote) (h.votes d' a))
    rw [hsame]
    by_cases hd : d' = d
    · subst hd
      have hempty : s.voters d' vote = ∅ := by
        ext a
        simp [State.voters, hs.unvoted d' a hnew]
      simp [hempty, hzero rfl]
    · exact hold hd
  constructor
  · intro d' hd'
    have hcount := h.count
    have hnext := h.next
    rw [h.disputes d', if_neg (by omega)]
    exact hs.numbered d' (by omega)
  · intro d' a hd'
    rw [h.votes]
    rw [h.disputes d'] at hd'
    split at hd'
    · cases hd'
    · exact hs.unvoted d' a hd'
  · intro c' d'
    rw [h.disputed_iff, h.pointers c']
    by_cases hc : c' = c <;> by_cases hd : d' = d
    · simp [hc, hd]
    · have hold : ¬ s.disputed c .opened d' := fun hopen => by
        simpa [h.free] using (hs.pointer c d').mpr hopen
      simp only [hc, hd, if_true, if_false, hold, iff_false]
      exact fun heq => hd (Option.some.inj heq).symm
    · have hold : s.openDispute c' ≠ some d := fun hopen =>
        hnot _ _ ((hs.pointer c' d).mp hopen)
      simp [hc, hd, hold]
    · simpa [hc, hd] using hs.pointer c' d'
  · intro d' x hx
    refine htally d' x true x.votesFor hx (fun heq => ?_) fun hne => ?_
    · rw [h.disputes, if_pos heq] at hx
      simp [← Option.some.inj hx]
    · rw [h.disputes, if_neg hne] at hx
      exact hs.votesFor d' x hx
  · intro d' x hx
    refine htally d' x false x.votesAgainst hx (fun heq => ?_) fun hne => ?_
    · rw [h.disputes, if_pos heq] at hx
      simp [← Option.some.inj hx]
    · rw [h.disputes, if_neg hne] at hx
      exact hs.votesAgainst d' x hx
  · intro c'
    rw [hflag c', hs.flag c']
    refine exists_congr fun d' => ?_
    rw [h.disputed_iff]
    split
    · next heq => simp [heq, hnot]
    · next heq => rfl

/-! ## Voting -/

theorem disputeCount_voteOnDispute :
    wp (voteOnDispute d voter vote) (fun _ t => t.disputeCount = s.disputeCount) e s := by
  simp [voteOnDispute, requireRegisteredOracle, getDisputeThreshold, resolveDispute,
    recordCredentialSnapshot, State.disputeCount]

/-- What a vote leaves on file: the dispute with one more vote, still open or closed. -/
theorem Votes.dispute_eq (h : Votes e d voter vote x s t) :
    ∃ y, t.dispute d = some y ∧ y.credentialId = x.credentialId ∧
      y.votesFor = x.votesFor + (if vote then 1 else 0) ∧
      y.votesAgainst = x.votesAgainst + (if vote then 0 else 1) := by
  have hcounted : ∀ y, y = x.counted vote ∨ (∃ upheld now, y = (x.counted vote).closed upheld now) →
      y.credentialId = x.credentialId ∧ y.votesFor = x.votesFor + (if vote then 1 else 0) ∧
        y.votesAgainst = x.votesAgainst + (if vote then 0 else 1) := by
    rintro y (rfl | ⟨upheld, now, rfl⟩) <;> cases vote <;> exact ⟨rfl, rfl, rfl⟩
  generalize hres : (x.counted vote).resolution s.threshold = res
  cases hres ▸ h.outcome with
  | pending hdispute => exact ⟨_, hdispute, hcounted _ (.inl rfl)⟩
  | decided upheld hdispute => exact ⟨_, hdispute, hcounted _ (.inr ⟨upheld, _, rfl⟩)⟩

theorem Votes.disputed_of_ne (h : Votes e d voter vote x s t) {c' d' : Nat} (hd : d' ≠ d) :
    t.disputed c' status d' ↔ s.disputed c' status d' := by
  unfold State.disputed
  rw [h.others d' hd]

/-- Before the vote, its dispute is the open one of its credential. -/
theorem Votes.disputed_before (h : Votes e d voter vote x s t) {c' : Nat} :
    s.disputed c' status d ↔ c' = x.credentialId ∧ status = .opened := by
  simp [State.disputed, h.before, h.pending, eq_comm]

/-- The pointer and the flag after a vote. -/
theorem Votes.pointer_flag (h : Votes e d voter vote x s t) (hs : Settled s) :
    (∀ c d', t.openDispute c = some d' ↔ t.disputed c .opened d') ∧
      ∀ c, t.invalidated c = true ↔ ∃ d', t.disputed c .upheld d' := by
  have hid : (x.counted vote).credentialId = x.credentialId := credentialId_counted
  have hpending : (x.counted vote).status = .opened := by
    cases vote <;> exact h.pending
  have hopen : s.openDispute x.credentialId = some d :=
    (hs.pointer _ _).mpr (h.disputed_before.mpr ⟨rfl, rfl⟩)
  generalize hres : (x.counted vote).resolution s.threshold = res
  cases hres ▸ h.outcome with
  | pending hdispute hpointer hflag =>
      have hsame : ∀ c status d', t.disputed c status d' ↔ s.disputed c status d' := by
        intro c status d'
        by_cases hd : d' = d
        · subst hd
          rw [h.disputed_before]
          simp [State.disputed, hdispute, hid, hpending, eq_comm]
        · exact h.disputed_of_ne hd
      exact ⟨fun c d' => by rw [hpointer, hsame]; exact hs.pointer c d',
        fun c => by simp only [hflag, hsame]; exact hs.flag c⟩
  | decided upheld hdispute hpointer hflag =>
      rw [hid] at hpointer hflag
      have hown : ∀ c status, t.disputed c status d ↔
          c = x.credentialId ∧ status = if upheld then .upheld else .rejected := by
        intro c status
        simp [State.disputed, hdispute, Dispute.closed, hid, eq_comm]
      refine ⟨fun c d' => ?_, fun c => ?_⟩
      · rw [hpointer]
        by_cases hd : d' = d
        · subst hd
          have hclosed : ¬ t.disputed c .opened d' := by
            rw [hown]
            cases upheld <;> simp
          simp only [hclosed, iff_false]
          split
          · simp
          · next hc => exact fun heq => hc (h.disputed_before.mp ((hs.pointer c d').mp heq)).1
        · rw [h.disputed_of_ne hd, ← hs.pointer]
          split
          · next hc =>
              subst hc
              rw [hopen]
              exact iff_of_false (by simp) fun heq => hd (Option.some.inj heq).symm
          · exact Iff.rfl
      · have hsplit : (∃ d', t.disputed c .upheld d') ↔
            t.disputed c .upheld d ∨ ∃ d', s.disputed c .upheld d' := by
          constructor
          · rintro ⟨d', hd'⟩
            by_cases hd : d' = d
            · exact .inl (hd ▸ hd')
            · exact .inr ⟨d', (h.disputed_of_ne hd).mp hd'⟩
          · rintro (hd | ⟨d', hd'⟩)
            · exact ⟨d, hd⟩
            · have hne : d' ≠ d := by
                rintro rfl
                simpa using (h.disputed_before.mp hd').2
              exact ⟨d', (h.disputed_of_ne hne).mpr hd'⟩
        rw [hsplit, ← hs.flag, hflag, hown]
        cases upheld <;> simp [or_comm]

theorem Votes.voters_eq (h : Votes e d voter vote x s t) {d' : Nat} {b : Bool} :
    t.voters d' b = if d' = d ∧ b = vote then insert voter (s.voters d' b) else s.voters d' b := by
  ext a
  change t.vote d' a = some b ↔ _
  rw [h.votes d' a]
  by_cases ha : d' = d ∧ a = voter
  · obtain ⟨rfl, rfl⟩ := ha
    have hnot : a ∉ s.voters d' b := by simp [State.voters, h.first]
    by_cases hb : b = vote
    · simp [hb]
    · simpa [hb, hnot] using Ne.symm hb
  · rw [if_neg ha]
    by_cases hb : d' = d ∧ b = vote
    · have hne : a ≠ voter := fun heq => ha ⟨hb.1, heq⟩
      simp [hb, hne, State.voters]
    · rw [if_neg hb]
      rfl

theorem Votes.settled (h : Votes e d voter vote x s t) (hs : Settled s)
    (hcount : t.disputeCount = s.disputeCount) : Settled t := by
  obtain ⟨y, hy, hid, hfor, hagainst⟩ := h.dispute_eq
  obtain ⟨hpointer, hflag⟩ := h.pointer_flag hs
  have hnew : voter ∉ s.voters d vote := by simp [State.voters, h.first]
  refine ⟨fun d' hd' => ?_, fun d' a hd' => ?_, hpointer, fun d' z hz => ?_, fun d' z hz => ?_, hflag⟩
  · have hnone := hs.numbered d' (hcount ▸ hd')
    rw [h.others d', hnone]
    rintro rfl
    simp [h.before] at hnone
  · have hne : d' ≠ d := by
      rintro rfl
      simp [hy] at hd'
    rw [h.votes, if_neg (fun hand => hne hand.1)]
    exact hs.unvoted d' a (h.others d' hne ▸ hd')
  · rw [h.voters_eq]
    by_cases hd : d' = d
    · subst hd
      obtain rfl := Option.some.inj (hy.symm.trans hz)
      cases vote with
      | false => simp [hfor, hs.votesFor d' x h.before]
      | true => simp [hfor, Set.encard_insert_of_notMem hnew, hs.votesFor d' x h.before]
    · simpa [hd] using hs.votesFor d' z (h.others d' hd ▸ hz)
  · rw [h.voters_eq]
    by_cases hd : d' = d
    · subst hd
      obtain rfl := Option.some.inj (hy.symm.trans hz)
      cases vote with
      | false => simp [hagainst, Set.encard_insert_of_notMem hnew, hs.votesAgainst d' x h.before]
      | true => simp [hagainst, hs.votesAgainst d' x h.before]
    · simpa [hd] using hs.votesAgainst d' z (h.others d' hd ▸ hz)

/-! ## Runs -/

/-- Every call keeps the records of the disputes together. -/
theorem exec_settled {k : Call} (hs : Settled s) : wp (exec k) (fun _ t => Settled t) e s := by
  have hframe : wp (exec k) (fun _ t => SameBut k.areas s t) e s := exec_frame k
  cases k with
  | initiateCredentialDispute i a r =>
      refine Tx.wp_mono (Tx.wp_and hframe (exec_opens i a r)) ?_
      rintro _ t ⟨hsame, d, hopens⟩
      exact hopens.settled hs fun c => hsame.invalidated (by simp [Call.areas])
  | voteOnDispute d a b =>
      refine Tx.wp_mono (Tx.wp_and (voteOnDispute_spec d a b)
        disputeCount_voteOnDispute) ?_
      rintro _ t ⟨⟨x, hvotes⟩, hcount⟩
      exact hvotes.settled hs hcount
  | _ => exact Tx.wp_mono hframe fun _ t ht => hs.congr ht (by simp [Call.areas]) (by simp [Call.areas])

theorem Reachable.settled {w : World} (h : Reachable w) : Settled w.state :=
  reachable_invariant h (fun _ => settled_genesis) exec_settled

/-- A call leaves a closed dispute alone. -/
theorem exec_closed {k : Call} (hs : Settled s) (hx : s.dispute d = some x)
    (hclosed : x.status ≠ .opened) : wp (exec k) (fun _ t => t.dispute d = some x) e s := by
  have hsame : .disputes ∉ k.areas → wp (exec k) (fun _ t => t.dispute d = some x) e s := by
    intro hk
    exact Tx.wp_mono (exec_frame k) fun _ t ht => (ht.get (k := .disputeRecord d) hk).trans hx
  cases k with
  | initiateCredentialDispute i a r =>
      refine Tx.wp_mono (exec_opens i a r) ?_
      rintro _ t ⟨d', ht⟩
      have hne : d ≠ d' := by
        rintro rfl
        have hnone := hs.numbered d (by have := ht.next; omega)
        simp [hx] at hnone
      rw [ht.disputes, if_neg hne, hx]
  | voteOnDispute d' a b =>
      refine Tx.wp_mono (voteOnDispute_spec d' a b) ?_
      rintro _ t ⟨y, hvotes⟩
      have hne : d ≠ d' := by
        rintro rfl
        obtain rfl := Option.some.inj (hx.symm.trans hvotes.before)
        exact hclosed hvotes.pending
      rw [hvotes.others d hne, hx]
  | _ => exact hsame (by simp [Call.areas])

/-- A closed dispute stays as it is. -/
theorem closed_of_run {w w' : World} {ks : List Event} (h : Reachable w) (hrun : Run Step w ks w')
    (hx : w.state.dispute d = some x) (hclosed : x.status ≠ .opened) :
    w'.state.dispute d = some x := by
  refine (hrun.invariant (I := fun v => Reachable v ∧ v.state.dispute d = some x) ⟨h, hx⟩ ?_).2
  rintro v k v' ⟨hv, hvx⟩ hstep
  refine ⟨hv.step hstep, ?_⟩
  cases hstep with
  | call _ _ hexec => exact exec_closed hv.settled hvx hclosed _ _ hexec

end Steps

@[simp] theorem isCredentialInvalidated_ok {e : Env} {s t : State} {c : Nat} {b : Bool} :
    isCredentialInvalidated c e s = .ok (b, t) ↔ s.invalidated c = b ∧ s = t := by
  simp only [isCredentialInvalidated, Tx.ok_bind, ok_load, Tx.ok_pure]
  constructor
  · rintro ⟨_, _, ⟨rfl, rfl⟩, rfl, rfl⟩
    exact ⟨rfl, rfl⟩
  · rintro ⟨rfl, rfl⟩
    exact ⟨_, s, ⟨rfl, rfl⟩, rfl, rfl⟩

/-- Disputes are decided once, by counted oracles. In every reachable state the pointer
of a credential is to its only open dispute, the tallies of a dispute are the numbers
of the addresses that voted either way, and a credential is invalidated exactly if a
dispute against it was upheld; and a dispute that is closed never changes again. -/
theorem disputes_decided_once {w : World} (h : Reachable w) :
    (∀ c d, w.state.openDispute c = some d ↔
      w.state.disputed c .opened d ∧ ∀ d', w.state.disputed c .opened d' → d' = d) ∧
    (∀ d x, w.state.dispute d = some x →
      (w.state.voters d true).encard = x.votesFor ∧
        (w.state.voters d false).encard = x.votesAgainst) ∧
    (∀ c e, isCredentialInvalidated c e w.state = .ok (true, w.state) ↔
      ∃ d, w.state.disputed c .upheld d) ∧
    ∀ d x, w.state.dispute d = some x → x.status ≠ .opened →
      ∀ ks w', Run Step w ks w' → w'.state.dispute d = some x := by
  have hs := h.settled
  refine ⟨fun c d => ⟨fun hopen => ?_, fun hopen => (hs.pointer c d).mpr hopen.1⟩,
    fun d x hx => ⟨hs.votesFor d x hx, hs.votesAgainst d x hx⟩, fun c e => ?_,
    fun d x hx hclosed ks w' hrun => closed_of_run h hrun hx hclosed⟩
  · refine ⟨(hs.pointer c d).mp hopen, fun d' hd' => ?_⟩
    exact Option.some.inj (((hs.pointer c d').mpr hd').symm.trans hopen)
  · simpa using hs.flag c

/-- Two oracles uphold a dispute; the pointer is gone, two votes are counted and the
credential is invalidated. -/
theorem disputes_decided_once_upheld : ∃ w, Reachable w ∧ w.state.openDispute 1 = none ∧
    (w.state.voters 1 true).encard = 2 ∧ w.state.invalidated 1 = true := by
  have hplay : (play (initialised ⟨8⟩)
      [([⟨8⟩], 1, .registerOracle ⟨20⟩), ([⟨8⟩], 1, .registerOracle ⟨21⟩),
        ([⟨20⟩], 2, .attest ⟨20⟩ [1] [2]), ([⟨8⟩], 3, .setDisputeThreshold 2),
        ([⟨30⟩], 4, .initiateCredentialDispute 1 ⟨30⟩ [7]),
        ([⟨20⟩], 5, .voteOnDispute 1 ⟨20⟩ true), ([⟨21⟩], 6, .voteOnDispute 1 ⟨21⟩ true)]).any
      (fun w => decide (w.state.openDispute 1 = none ∧ (w.state.dispute 1).any (fun x =>
        decide (x.credentialId = 1 ∧ x.status = .upheld ∧ x.votesFor = 2)) = true)) = true := by
    decide +kernel
  obtain ⟨w, hw, hchecks⟩ := (Option.any_eq_true _ _).mp hplay
  simp only [decide_eq_true_eq, Option.any_eq_true] at hchecks
  obtain ⟨hpointer, x, hx, hid, hstatus, hvotes⟩ := hchecks
  have hreach := reachable_of_play hw
  obtain ⟨-, htally, hflag, -⟩ := disputes_decided_once hreach
  refine ⟨w, hreach, hpointer, by simpa [hvotes] using (htally 1 x hx).1, ?_⟩
  simpa using (hflag 1 (signedBy [] 0)).mpr ⟨1, x, hx, hid, hstatus⟩

end Heirloom.Verifier
