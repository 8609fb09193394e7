import Heirloom.Results.WithdrawalGuards

/-!
# Withdrawals over any period

The limits of a vault are per window, and a window begins with the first withdrawal after
the end of the one before. Over a period that is not a window, twice the limit can be
withdrawn, and no more.

* `withdrawals_limited`: while the limits stay as they are, `withdraw` pays within any day,
  week or thirty days at most twice the limit (nothing, if the limit is negative), and
  between two resets of a window at most the limit.
* `negative_limit_exceeded`: a negative limit is accepted. It stops all withdrawals, but
  nothing is still more than twice the limit.
-/

namespace Heirloom

open Transaction Runs Windows

/-- What the call withdraws from vault `id` by `withdraw`. -/
def Call.withdrawn (id : Nat) : Call → List Int
  | .withdrawal (.withdraw i _ x) => if i = id then [x] else []
  | _ => []

/-- What `withdraw` has paid to the owner of vault `id` in a history, with the times, oldest
first. -/
def withdrawalsFrom (id : Nat) : List Event → List (Nat × Int)
  | [] => []
  | .call e c :: ks => withdrawalsFrom id ks ++ (c.withdrawn id).map fun x => (e.timestamp, x)
  | .tokens :: ks => withdrawalsFrom id ks

/-- The limits of vault `id` are not set anew by the call. Any other call may come between the
withdrawals. -/
def KeepsLimits (id : Nat) (_ : State) (_ : Env) (c : Call) : Prop :=
  ∀ a d w m, c ≠ .withdrawal (.setWithdrawalLimits id a d w m)

/-- One of the three periods that limits are set for. -/
structure Period where
  seconds : Nat
  window : WithdrawalTracker → Window
  limit : WithdrawalLimit → Int

def periods : List Period :=
  [⟨oneDay, (·.daily), (·.dailyLimit)⟩, ⟨oneWeek, (·.weekly), (·.weeklyLimit)⟩,
    ⟨thirtyDays, (·.monthly), (·.monthlyLimit)⟩]

/-- The withdrawals are limited in the period `p`, the tracker being `stored` at first. -/
structure Limited (p : Period) (limits : WithdrawalLimit) (stored : Option WithdrawalTracker)
    (withdrawals : List (Nat × Int)) : Prop where
  anyPeriod : ∀ start,
    totalBetween start (start + p.seconds) withdrawals ≤ 2 * max (p.limit limits) 0
  betweenResets : Within p.seconds (p.limit limits) (stored.map p.window) withdrawals

section Periods

variable {e : Env} {s t : State} {id : Nat} {p : Period} {x : Int} {tracker : WithdrawalTracker}
  {stored : Option WithdrawalTracker} {limits : WithdrawalLimit}

theorem Period.seconds_pos (hp : p ∈ periods) : 0 < p.seconds := by
  simp only [periods, List.mem_cons, List.not_mem_nil, or_false] at hp
  rcases hp with rfl | rfl | rfl <;> decide

theorem WithdrawalTracker.Follows.window {now : Nat} (h : tracker.Follows stored now x)
    (hp : p ∈ periods) : p.window tracker = enter p.seconds (stored.map p.window) (now, x) := by
  simp only [periods, List.mem_cons, List.not_mem_nil, or_false] at hp
  rcases hp with rfl | rfl | rfl
  · exact h.daily
  · exact h.weekly
  · exact h.monthly

theorem WithdrawalTracker.Within.window (h : tracker.Within limits) (hp : p ∈ periods) :
    (p.window tracker).total ≤ p.limit limits := by
  simp only [periods, List.mem_cons, List.not_mem_nil, or_false] at hp
  rcases hp with rfl | rfl | rfl
  · exact h.daily
  · exact h.weekly
  · exact h.monthly

/-- No tracker has counted less than nothing in any of its three windows. -/
def State.TrackersNonneg (s : State) : Prop :=
  ∀ id tracker, s.get (.withdrawalTracker id) = some tracker → ∀ p ∈ periods,
    0 ≤ (p.window tracker).total

theorem withdraw_trackersNonneg {caller : Address} (hs : s.TrackersNonneg)
    (hexec : withdraw id caller x e s = .ok ((), t)) : ∀ tracker,
      t.get (.withdrawalTracker id) = some tracker → ∀ p ∈ periods, 0 ≤ (p.window tracker).total := by
  intro tracker htracker p hp
  obtain ⟨-, ⟨-, hsame⟩ | ⟨limits, tracker', -, htracker', hfollows, -⟩⟩ := withdraw_tracks _ _ hexec
  · exact hs id tracker (hsame ▸ htracker) p hp
  · obtain rfl : tracker' = tracker := Option.some.inj (htracker'.symm.trans htracker)
    obtain ⟨v, -, hpayment, -⟩ := withdraw_spec _ _ hexec
    rw [hfollows.window hp]
    refine hpayment.positive.le.trans (le_enter_total fun y hy => ?_)
    obtain ⟨old, hold, rfl⟩ := Option.map_eq_some_iff.mp hy
    exact hs id old hold p hp

theorem trackersNonneg_of_reachable {w : World} (h : Reachable w) : w.state.TrackersNonneg := by
  refine reachable_invariant (I := State.TrackersNonneg) h ?_ ?_ fun _ hs => hs
  · intro w hw id tracker htracker
    rw [hw.get (by simp)] at htracker
    cases htracker
  · intro s e c hnum hs _ t hexec id tracker htracker
    by_cases hwithdraw : ∃ a x, c = .withdrawal (.withdraw id a x)
    · obtain ⟨a, x, rfl⟩ := hwithdraw
      exact withdraw_trackersNonneg hs hexec tracker htracker
    · by_cases hset : ∃ a d w m, c = .withdrawal (.setWithdrawalLimits id a d w m)
      · obtain ⟨a, d, w, m, rfl⟩ := hset
        rw [(setWithdrawalLimits_tracker _ _ hexec).2] at htracker
        exact hs id tracker htracker
      · rw [(exec_sameLimits hnum hset hwithdraw _ _ hexec).2] at htracker
        exact hs id tracker htracker

end Periods

/-! ## Along a run -/

/-- The tracker of vault `id` has counted the withdrawals since it was `stored`. -/
structure Counts (id : Nat) (limits : WithdrawalLimit) (stored : Option WithdrawalTracker)
    (withdrawals : List (Nat × Int)) (w : World) : Prop where
  numbered : w.state.Numbered
  current : w.state.get (.withdrawalLimit id) = some limits
  tracker : ∀ p ∈ periods, (w.state.get (.withdrawalTracker id)).map p.window =
    openAfter p.seconds (stored.map p.window) withdrawals
  within : ∀ p ∈ periods, Within p.seconds (p.limit limits) (stored.map p.window) withdrawals
  inOrder : InOrder withdrawals
  past : ∀ entry ∈ withdrawals, entry.1 ≤ w.clock
  nonneg : ∀ entry ∈ withdrawals, 0 ≤ entry.2

section Runs

variable {w w' : World} {ks : List Event} {e : Env} {t : State} {id : Nat} {x : Int}
  {limits : WithdrawalLimit} {stored : Option WithdrawalTracker} {withdrawals : List (Nat × Int)}

/-- A step that leaves the limits and the tracker alone. -/
theorem Counts.later (h : Counts id limits stored withdrawals w) (hnum : w'.state.Numbered)
    (hclock : w.clock ≤ w'.clock) (hsame : SameLimits id w.state w'.state) :
    Counts id limits stored withdrawals w' where
  numbered := hnum
  current := hsame.1.trans h.current
  tracker := fun p hp => by rw [hsame.2, h.tracker p hp]
  within := h.within
  inOrder := h.inOrder
  past := fun entry hentry => (h.past entry hentry).trans hclock
  nonneg := h.nonneg

/-- A withdrawal is counted. -/
theorem Counts.withdraw {caller : Address} (h : Counts id limits stored withdrawals w)
    (hnum : t.Numbered) (hclock : w.clock ≤ e.timestamp)
    (hexec : Heirloom.withdraw id caller x e w.state = .ok ((), t)) :
    Counts id limits stored (withdrawals ++ [(e.timestamp, x)]) ⟨t, e.timestamp⟩ := by
  obtain ⟨hlimit, ⟨hnone, -⟩ | ⟨limits', tracker, hlimits', htracker, hfollows, hwithin⟩⟩ :=
    withdraw_tracks _ _ hexec
  · rw [h.current] at hnone
    cases hnone
  obtain rfl : limits' = limits := Option.some.inj (hlimits'.symm.trans h.current)
  obtain ⟨v, -, hpayment, -⟩ := withdraw_spec _ _ hexec
  have hwindow : ∀ p ∈ periods, p.window tracker = enter p.seconds
      (openAfter p.seconds (stored.map p.window) withdrawals) (e.timestamp, x) := by
    intro p hp
    rw [hfollows.window hp, h.tracker p hp]
  refine ⟨hnum, hlimit.trans h.current, fun p hp => ?_, fun p hp => ?_, ?_, ?_, ?_⟩
  · rw [htracker, openAfter_append_singleton, ← hwindow p hp]
    rfl
  · refine within_append_singleton.mpr ⟨h.within p hp, ?_⟩
    rw [← hwindow p hp]
    exact hwithin.window hp
  · refine List.pairwise_append.mpr ⟨h.inOrder, List.pairwise_singleton _ _, fun p hp q hq => ?_⟩
    obtain rfl := List.mem_singleton.mp hq
    exact (h.past p hp).trans hclock
  · intro p hp
    rcases List.mem_append.mp hp with hp | hp
    · exact (h.past p hp).trans hclock
    · obtain rfl := List.mem_singleton.mp hp
      exact le_rfl
  · intro p hp
    rcases List.mem_append.mp hp with hp | hp
    · exact h.nonneg p hp
    · obtain rfl := List.mem_singleton.mp hp
      exact hpayment.positive.le

theorem withdrawalsFrom_cons {c : Call} (hc : ¬ ∃ a x, c = .withdrawal (.withdraw id a x)) :
    withdrawalsFrom id (.call e c :: ks) = withdrawalsFrom id ks := by
  have hnone : c.withdrawn id = [] := by
    unfold Call.withdrawn
    split
    · next i a x => exact if_neg fun hi => hc ⟨a, x, by rw [hi]⟩
    · rfl
  simp [withdrawalsFrom, hnone]

theorem counts_of_run (hw : Reachable w) (hlimits : w.state.get (.withdrawalLimit id) = some limits)
    (hrun : Run (Guarded Step (OnCalls (KeepsLimits id))) w ks w') :
    Counts id limits (w.state.get (.withdrawalTracker id)) (withdrawalsFrom id ks) w' := by
  refine hrun.invariantHistory (I := fun ks w' =>
    Counts id limits (w.state.get (.withdrawalTracker id)) (withdrawalsFrom id ks) w') ?_ ?_
  · refine ⟨hw.numbered, hlimits, fun p _ => rfl, fun p _ => trivial, List.Pairwise.nil, ?_, ?_⟩
    · exact fun p hp => by cases hp
    · exact fun p hp => by cases hp
  · rintro ks w₁ k w₂ h ⟨hstep, hkeeps⟩
    have hnum := hstep.numbered h.numbered
    have hclock := hstep.clock_le
    cases hstep with
    | @call e c t _ hexec =>
        by_cases hwithdraw : ∃ a x, c = .withdrawal (.withdraw id a x)
        · obtain ⟨a, x, rfl⟩ := hwithdraw
          have hcons : withdrawalsFrom id (.call e (.withdrawal (.withdraw id a x)) :: ks) =
              withdrawalsFrom id ks ++ [(e.timestamp, x)] := by
            simp [withdrawalsFrom, Call.withdrawn]
          rw [hcons]
          exact h.withdraw hnum hclock hexec
        · rw [withdrawalsFrom_cons hwithdraw]
          refine h.later hnum hclock (exec_sameLimits h.numbered ?_ hwithdraw _ _ hexec)
          rintro ⟨a, d, w, m, rfl⟩
          exact hkeeps a d w m rfl
    | tokens _ _ => exact h.later hnum hclock ⟨rfl, rfl⟩

end Runs

/-- While the limits of a vault stay as they are, whatever else happens: within any period of a
day, a week or thirty days, at most twice the limit is withdrawn (and nothing, if the limit is
negative), and between two resets of the tracker at most the limit. -/
theorem withdrawals_limited {w w' : World} {ks : List Event} {id : Nat} {limits : WithdrawalLimit}
    (hw : Reachable w) (hlimits : w.state.get (.withdrawalLimit id) = some limits)
    (hrun : Run (Guarded Step (OnCalls (KeepsLimits id))) w ks w') :
    ∀ p ∈ periods, Limited p limits (w.state.get (.withdrawalTracker id)) (withdrawalsFrom id ks) := by
  intro p hp
  have h := counts_of_run hw hlimits hrun
  refine ⟨fun start => ?_, h.within p hp⟩
  refine totalBetween_le ((h.within p hp).mono (le_max_left _ _)) h.inOrder h.nonneg ?_
    (le_max_right _ _) (Period.seconds_pos hp)
  intro y hy
  obtain ⟨tracker, htracker, rfl⟩ := Option.map_eq_some_iff.mp hy
  exact trackersNonneg_of_reachable hw id tracker htracker p hp

/-- Two withdrawals of ten under a limit of ten, within one day but in different windows. -/
theorem withdrawals_limited_twice : ∃ (w w' : World) (ks : List Event), Reachable w ∧
    w.state.get (.withdrawalLimit 1) = some ⟨10, 100, 100⟩ ∧ Run Step w ks w' ∧
      totalBetween 1000 (1000 + oneDay) (withdrawalsFrom 1 ks) = 20 ∧
        ∀ p ∈ periods, Limited p ⟨10, 100, 100⟩ (w.state.get (.withdrawalTracker 1))
          (withdrawalsFrom 1 ks) := by
  have hplay : (play (initialised ⟨8⟩ ⟨9⟩)
      [opensVault 1000000, paysIn 100,
        (signedBy [⟨1⟩] 0, .withdrawal (.setWithdrawalLimits 1 ⟨1⟩ 10 100 100))]).any (fun w =>
          w.state.get (.withdrawalLimit 1) = some ⟨10, 100, 100⟩ ∧
          (play w [(signedBy [⟨1⟩] 1000, .withdrawal (.withdraw 1 ⟨1⟩ 10)),
            (signedBy [⟨1⟩] 87400, .withdrawal (.withdraw 1 ⟨1⟩ 10))]).isSome) = true := by
    decide +kernel
  obtain ⟨w, hw, hchecks⟩ := (Option.any_eq_true _ _).mp hplay
  simp only [decide_eq_true_eq] at hchecks
  obtain ⟨w', hw'⟩ := Option.isSome_iff_exists.mp hchecks.2
  have hreach : Reachable w := reachable_of_play hw
  have hrun := guarded_of_play (P := KeepsLimits 1) (by simp [KeepsLimits]) hw'
  exact ⟨w, w', _, hreach, hchecks.1, run_of_play hw', by decide,
    withdrawals_limited hreach hchecks.1 hrun⟩

/-- Under a limit of minus one nothing can be withdrawn, and nothing is more than minus two. -/
theorem negative_limit_exceeded : ¬ ∀ (w w' : World) (ks : List Event) (id : Nat)
    (limits : WithdrawalLimit), Reachable w → w.state.get (.withdrawalLimit id) = some limits →
    Run (Guarded Step (OnCalls (KeepsLimits id))) w ks w' → ∀ p ∈ periods, ∀ start,
      totalBetween start (start + p.seconds) (withdrawalsFrom id ks) ≤ 2 * p.limit limits := by
  have hplay : (play (initialised ⟨8⟩ ⟨9⟩)
      [opensVault 100,
        (signedBy [⟨1⟩] 0, .withdrawal (.setWithdrawalLimits 1 ⟨1⟩ (-1) (-1) (-1)))]).any
      (fun w => decide (w.state.get (.withdrawalLimit 1) = some ⟨-1, -1, -1⟩)) = true := by
    decide +kernel
  obtain ⟨w, hw, hlimits⟩ := (Option.any_eq_true _ _).mp hplay
  intro h
  have hle := h w w [] 1 _ (reachable_of_play hw) (of_decide_eq_true hlimits) .start
    ⟨oneDay, (·.daily), (·.dailyLimit)⟩ List.mem_cons_self 0
  exact absurd hle (by decide)

end Heirloom
