import Heirloom.System

/-!
# Vesting schedules over whole runs

* A vault vests by time or by milestones, not both, as long as each kind is set
  up only where the other is absent (`one_kind_of_vesting`). The code checks one
  direction, and only the first time-based schedule (`both_kinds_of_vesting`).
* The flags of a milestone follow its progress (`flags_follow_progress`), except
  where a report finds the milestone at its target already
  (`reached_but_not_fulfilled`), an adjustment lowers a target, or a schedule is
  replaced.
* Milestone claims pay each milestone its own share (`milestones_pay_their_shares`),
  as long as the last entry of the list, which takes whatever is left, is claimed
  last (`last_milestone_takes_all`).
-/

namespace Heirloom

open Transaction Runs

/-! ## One kind of vesting -/

/-- No vault vests both by time and by milestones: one of the two schedules is absent. -/
def State.OneKind (s : State) : Prop :=
  ∀ id, s.get (.milestoneVestingSchedule id) = none ∨ s.NoSchedule id

/-- Each kind of vesting is set up only where the other is absent. Neither of the two calls looks at
the other's schedule. -/
def KindsApart (s : State) (_ : Env) : Call → Prop
  | .vesting (.setVestingSchedule id _ _ _ _ _ _) => s.get (.milestoneVestingSchedule id) = none
  | .vesting (.setMilestoneVesting id _ _ _) => s.NoSchedule id
  | _ => True

section Kinds

variable {e : Env} {s t : State} {c : Call} {o : VestingCall} {id : Nat}

/-- A milestone schedule is made by `set_milestone_vesting` only. -/
theorem milestones_none (hnum : s.Numbered)
    (hc : ∀ a l x, c ≠ .vesting (.setMilestoneVesting id a l x))
    (hs : s.get (.milestoneVestingSchedule id) = none) :
    wp (exec c) (fun _ t => t.get (.milestoneVestingSchedule id) = none) e s := by
  intro _ t hexec
  obtain hsame | ⟨o, rfl, hstep⟩ := exec_milestones id hnum _ _ hexec
  · exact hsame.trans hs
  · cases hstep with
    | set => exact absurd rfl (hc _ _ _)
    | evolve _ hms => simp [hs] at hms

/-- A time-based schedule is made by `set_vesting_schedule` only. -/
theorem noSchedule_kept (hnum : s.Numbered)
    (hc : ∀ a t i n x p, c ≠ .vesting (.setVestingSchedule id a t i n x p))
    (hs : s.NoSchedule id) : wp (exec c) (fun _ t => t.NoSchedule id) e s := by
  intro _ t hexec
  have hframe : Frame (c.footprint s) s t := exec_frame c hnum _ _ hexec
  by_cases hid : id ∈ (c.footprint s).vaults
  swap
  · exact fun i => (hframe.get_of_vault rfl hid).trans (hs i)
  by_cases harea : .schedules ∈ (c.footprint s).areas
  swap
  · exact fun i => (hframe.get_of_area (by simpa using harea)).trans (hs i)
  obtain ⟨o, rfl⟩ := Call.schedules_writer (.inl harea)
  obtain ⟨i, hi⟩ := o.footprint_vaults
  obtain rfl : id = i := by simpa [Call.footprint, hi] using hid
  exact execVesting_noSchedule (fun a t i n x p h => hc a t i n x p (h ▸ rfl)) hi hs _ _ hexec

theorem exec_oneKind (hnum : s.Numbered) (hs : s.OneKind) (hP : KindsApart s e c) :
    wp (exec c) (fun _ t => t.OneKind) e s := by
  intro _ t hexec id
  by_cases htime : ∃ a t i n x p, c = .vesting (.setVestingSchedule id a t i n x p)
  · obtain ⟨a, t, i, n, x, p, rfl⟩ := htime
    exact .inl (milestones_none hnum (by simp) hP _ _ hexec)
  · by_cases hmilestones : ∃ a l x, c = .vesting (.setMilestoneVesting id a l x)
    · obtain ⟨a, l, x, rfl⟩ := hmilestones
      exact .inr (noSchedule_kept hnum (by simp) hP _ _ hexec)
    · refine (hs id).imp (fun hnone => ?_) fun hnone => ?_
      · exact milestones_none hnum (by simpa using hmilestones) hnone _ _ hexec
      · exact noSchedule_kept hnum (by simpa using htime) hnone _ _ hexec

end Kinds

/-- In every run in which each kind of vesting is set up only where the other is
absent, no vault has both. -/
theorem one_kind_of_vesting {w₀ w : World} {ks : List Event} (h₀ : Genesis w₀)
    (hrun : Run (Guarded Step (OnCalls KindsApart)) w₀ ks w) : w.state.OneKind :=
  invariant_of_calls h₀ hrun (fun _ => .inl (h₀.get (by simp))) exec_oneKind fun _ h => h

/-- A vault with a time-based schedule. -/
theorem one_kind_of_vesting_by_time : ∃ w : World, Reachable w ∧
    (w.state.get (.vestingSchedule 1 0)).isSome ∧
      w.state.get (.milestoneVestingSchedule 1) = none := by
  have hplay : (play (initialised ⟨8⟩ ⟨9⟩)
      [opensVault 100, paysIn 50]).any
      (fun w => (w.state.get (.milestoneVestingSchedule 1)).isNone ∧
        (play w [(signedBy [⟨1⟩] 1, .vesting (.setVestingSchedule 1 ⟨1⟩ 10 10 5 50 0))]).any
          fun w' => (w'.state.get (.vestingSchedule 1 0)).isSome) = true := by decide +kernel
  obtain ⟨w, hw, hchecks⟩ := (Option.any_eq_true _ _).mp hplay
  simp only [decide_eq_true_eq] at hchecks
  obtain ⟨w', hw', hschedule⟩ := (Option.any_eq_true _ _).mp hchecks.2
  have hrun : Run (Guarded Step (OnCalls KindsApart)) (initialised ⟨8⟩ ⟨9⟩) _ w' :=
    .next (guarded_of_play (by simp [KindsApart]) hw)
      (guarded_step_of_play (by simpa [KindsApart] using hchecks.1) hw')
  have h₀ : Genesis (initialised ⟨8⟩ ⟨9⟩) := genesis_initialised (by decide) (by decide)
  obtain hnone | hnone := one_kind_of_vesting h₀ hrun 1
  · exact ⟨w', ⟨_, _, h₀, hrun.unguard⟩, hschedule, hnone⟩
  · simp [hnone 0] at hschedule

/-- A time-based schedule is set up beside a milestone schedule. -/
theorem both_kinds_of_vesting : ¬ ∀ w : World, Reachable w → w.state.OneKind := by
  have hplay : (play (initialised ⟨8⟩ ⟨9⟩)
      [opensVault 100, paysIn 50,
        (signedBy [⟨1⟩] 1, .vesting (.setMilestoneVesting 1 ⟨1⟩ [⟨"", 10, 0, 10000, false, false⟩] ⟨7⟩)),
        (signedBy [⟨1⟩] 1, .vesting (.setVestingSchedule 1 ⟨1⟩ 10 10 5 50 0))]).any
      (fun w => (w.state.get (.milestoneVestingSchedule 1)).isSome ∧
        (w.state.get (.vestingSchedule 1 0)).isSome) = true := by decide +kernel
  obtain ⟨w, hw, hchecks⟩ := (Option.any_eq_true _ _).mp hplay
  simp only [decide_eq_true_eq] at hchecks
  intro h
  obtain hnone | hnone := h w (reachable_of_play hw) 1
  · simp [hnone] at hchecks
  · simp [hnone 0] at hchecks

/-! ## Flags and progress -/

/-- The milestone at position `i` of vault `id`. -/
def State.milestone? (s : State) (id i : Nat) : Option MilestoneEntry :=
  (s.get (.milestoneVestingSchedule id)).bind fun ms : MilestoneVestingSchedule => ms.milestones[i]?

/-- The fulfilled bit of the milestone says what its two values say: the target is reached. -/
def MilestoneEntry.Exact (m : MilestoneEntry) : Prop :=
  m.isFulfilled = true ↔ m.targetValue ≤ m.currentValue

/-- No flag that is set in `s` is cleared in `t`. -/
structure State.FlagsKept (s t : State) : Prop where
  fulfilled : ∀ id i, (s.milestone? id i).any (·.isFulfilled) = true →
    (t.milestone? id i).any (·.isFulfilled) = true
  claimed : ∀ id i, (s.milestone? id i).any (·.claimed) = true →
    (t.milestone? id i).any (·.claimed) = true

/-- What a report and an adjustment should have achieved. -/
def Call.FollowsProgress (s t : State) : Call → Prop
  | .vesting (.reportMilestoneProgress id indices _) => ∀ i ∈ indices,
      ∃ m, t.milestone? id i = some m ∧ m.Exact
  | .vesting (.adjustMilestoneTargets id _ _) => ∀ i m, s.milestone? id i = some m →
      ∃ m', t.milestone? id i = some m' ∧ m.targetValue ≤ m'.targetValue
  | _ => True

/-- A new schedule replaces no flag that is set, the last adjustment of a milestone does
not lower its target, and a reported milestone was below its target before the call or
is reported below it. -/
def ProgressKept (s : State) (_ : Env) : Call → Prop
  | .vesting (.setMilestoneVesting id _ l _) => ∀ i m, s.milestone? id i = some m →
      m.isFulfilled = false ∧ (m.claimed = true → l[i]?.any (·.claimed) = true)
  | .vesting (.adjustMilestoneTargets id _ adjustments) => ∀ i m a,
      s.milestone? id i = some m → (adjustments.filter (·.1 = i)).getLast? = some a →
        m.targetValue ≤ a.2
  | .vesting (.reportMilestoneProgress id indices values) => ∀ i m,
      s.milestone? id i = some m → i ∈ indices → m.currentValue < m.targetValue ∨
        ∃ value, (i, value) ∈ indices.zip values ∧ max value 0 < m.targetValue
  | _ => True

section Progress

variable {e : Env} {s t : State} {c : Call} {id : Nat} {m m' : MilestoneEntry}
  {reports : List (Nat × Int)}

/-- Reports of a milestone below its target: the first one that reaches it is the last. -/
theorem MilestoneEntry.Updated.exact_of_lt
    (h : m.Updated (fun r m => m.progress r.2) reports m') (hne : reports ≠ [])
    (hm : m.currentValue < m.targetValue) : m'.Exact := by
  induction reports generalizing m with
  | nil => exact absurd rfl hne
  | cons r reports ih =>
      obtain ⟨hopen, hrest⟩ := h
      by_cases hreach : m.targetValue ≤ max r.2 0
      · have hdone : (m.progress r.2).isFulfilled = true := by
          simp only [MilestoneEntry.progress]
          rw [if_pos ⟨hreach, not_le.mpr hm⟩]
        rw [hrest.eq_of_fulfilled hdone]
        exact iff_of_true hdone hreach
      · have hbelow : (m.progress r.2).isFulfilled = false := by
          simp [MilestoneEntry.progress, hreach, not_le.mp hreach]
        cases reports with
        | nil =>
            obtain rfl : m' = m.progress r.2 := hrest
            exact iff_of_false (by simp [hbelow]) hreach
        | cons r' reports => exact ih hrest (by simp) (not_le.mp hreach)

/-- A report below the target makes the bit follow the values again. -/
theorem MilestoneEntry.Updated.exact_of_mem
    (h : m.Updated (fun r m => m.progress r.2) reports m') {r : Nat × Int} (hr : r ∈ reports)
    (hbelow : max r.2 0 < m.targetValue) : m'.Exact := by
  induction reports generalizing m with
  | nil => simp at hr
  | cons r' reports ih =>
      obtain ⟨hopen, hrest⟩ := h
      obtain rfl | hmem := List.mem_cons.mp hr
      · cases reports with
        | nil =>
            obtain rfl : m' = m.progress r.2 := hrest
            refine iff_of_false ?_ (not_le.mpr hbelow)
            simp [MilestoneEntry.progress, not_le.mpr hbelow, hbelow]
        | cons r' reports => exact hrest.exact_of_lt (by simp) hbelow
      · exact ih hrest hmem hbelow

/-- The last adjustment counts. -/
theorem MilestoneEntry.Updated.target
    (h : m.Updated (fun a m => { m with targetValue := a.2 }) reports m') :
    m'.targetValue = (reports.getLast?.map (·.2)).getD m.targetValue := by
  induction reports generalizing m with
  | nil => exact congrArg _ h
  | cons r reports ih =>
      rw [ih h.2]
      cases reports with
      | nil => rfl
      | cons r' reports =>
          simp only [List.getLast?_eq_some_getLast (List.cons_ne_nil _ _)]
          rfl

theorem milestone?_of_get {ms : MilestoneVestingSchedule}
    (h : s.get (.milestoneVestingSchedule id) = some ms) (i : Nat) :
    s.milestone? id i = ms.milestones[i]? := by
  simp [State.milestone?, h]

/-- A change of a schedule clears no flag. -/
theorem VestingCall.Evolves.flags {o : VestingCall} {ms ms' : MilestoneVestingSchedule}
    (h : o.Evolves ms ms') {i : Nat} (hm : ms.milestones[i]? = some m) :
    ∃ m', ms'.milestones[i]? = some m' ∧ (m.isFulfilled = true → m'.isFulfilled = true) ∧
      (m.claimed = true → m'.claimed = true) := by
  cases o <;> simp only [VestingCall.Evolves] at h
  case pauseMilestoneVesting => exact ⟨m, by simpa [h] using hm, fun h => h, fun h => h⟩
  case resumeMilestoneVesting => exact ⟨m, by simpa [h] using hm, fun h => h, fun h => h⟩
  case adjustMilestoneTargets =>
    obtain ⟨l, hupd, rfl⟩ := h
    exact hupd.flags (fun _ _ => rfl) hm
  case emergencyFulfillMilestones =>
    obtain ⟨l, hupd, rfl⟩ := h
    exact hupd.flags (fun _ _ => rfl) hm
  case reportMilestoneProgress =>
    obtain ⟨_, l, hupd, rfl⟩ := h
    exact hupd.flags (fun _ _ => rfl) hm
  case claimMilestoneInstallments =>
    obtain ⟨_, rfl⟩ := h
    refine ⟨if m.claimable = true then { m with claimed := true } else m, ?_, ?_, ?_⟩
    · simp [MilestoneVestingSchedule.afterClaim, hm]
    · split <;> exact fun h => h
    · split
      · exact fun _ => rfl
      · exact fun h => h

theorem State.FlagsKept.trans {u : State} (h : s.FlagsKept t) (h' : t.FlagsKept u) :
    s.FlagsKept u :=
  ⟨fun id i hs => h'.fulfilled id i (h.fulfilled id i hs),
    fun id i hs => h'.claimed id i (h.claimed id i hs)⟩

theorem exec_flagsKept (hnum : s.Numbered) (hP : ProgressKept s e c) :
    wp (exec c) (fun _ t => s.FlagsKept t) e s := by
  intro _ t hexec
  -- one statement for both flags
  have hflags : ∀ id i m, s.milestone? id i = some m →
      (m.isFulfilled = true → (t.milestone? id i).any (·.isFulfilled) = true) ∧
      (m.claimed = true → (t.milestone? id i).any (·.claimed) = true) := by
    intro id i m hm
    obtain hsame | ⟨o, rfl, hstep⟩ := exec_milestones id hnum _ _ hexec
    · have hm' : t.milestone? id i = some m := by simpa [State.milestone?, hsame] using hm
      simp [hm']
    · cases hstep with
      | set _ _ _ _ _ hafter =>
          obtain ⟨hopen, hclaimed⟩ := hP i m hm
          rw [milestone?_of_get hafter]
          exact ⟨fun hf => by simp [hopen] at hf, hclaimed⟩
      | evolve _ hms hms' hev =>
          rw [milestone?_of_get hms] at hm
          obtain ⟨m', hm', hf, hcl⟩ := hev.flags hm
          rw [milestone?_of_get hms', hm']
          exact ⟨hf, hcl⟩
  constructor
  · intro id i hs
    obtain ⟨m, hm, hf⟩ := (Option.any_eq_true _ _).mp hs
    exact (hflags id i m hm).1 hf
  · intro id i hs
    obtain ⟨m, hm, hf⟩ := (Option.any_eq_true _ _).mp hs
    exact (hflags id i m hm).2 hf

theorem exec_followsProgress (hP : ProgressKept s e c) :
    wp (exec c) (fun _ t => c.FollowsProgress s t) e s := by
  intro _ t hexec
  unfold Call.FollowsProgress
  split
  · next id indices values =>
      intro i hi
      have hstep := reportMilestoneProgress_spec _ _ hexec
      cases hstep with
      | @evolve _ ms _ _ hms hms' hev =>
          obtain ⟨hlength, l, hupd, rfl⟩ := hev
          rw [milestone?_of_get hms']
          obtain ⟨value, hmem⟩ : ∃ value, (i, value) ∈ indices.zip values := by
            obtain ⟨n, hn, rfl⟩ := List.getElem_of_mem hi
            exact ⟨values[n], List.getElem_zip ▸ List.getElem_mem (by simp; omega)⟩
          have hlt : i < ms.milestones.length := hupd.defined _ hmem
          obtain ⟨m', hm', hentry⟩ := hupd.entry i ms.milestones[i] (by simp [hlt])
          refine ⟨m', hm', ?_⟩
          have hmine : ∀ value, (i, value) ∈ indices.zip values →
              (i, value) ∈ (indices.zip values).filter fun r => r.1 = i := by simp
          obtain hbelow | ⟨low, hlow, hbelow⟩ :=
            hP i ms.milestones[i] (by simp [milestone?_of_get hms, hlt]) hi
          · exact hentry.exact_of_lt (List.ne_nil_of_mem (hmine value hmem)) hbelow
          · exact hentry.exact_of_mem (hmine low hlow) hbelow
  · next id caller adjustments =>
      intro i m hm
      have hstep := adjustMilestoneTargets_spec _ _ hexec
      cases hstep with
      | evolve _ hms hms' hev =>
          obtain ⟨l, hupd, rfl⟩ := hev
          rw [milestone?_of_get hms']
          obtain ⟨m', hm', hentry⟩ := hupd.entry i m (milestone?_of_get hms i ▸ hm)
          refine ⟨m', hm', ?_⟩
          rw [hentry.target]
          cases hlast : (adjustments.filter fun a => a.1 = i).getLast? with
          | none => simp
          | some a => exact hP i m a hm hlast
  · trivial

/-- Along a run of such calls no flag is cleared. -/
theorem flagsKept_of_run {w w' : World} {ks : List Event} (hw : w.state.Numbered)
    (hrun : Run (Guarded Step (OnCalls ProgressKept)) w ks w') :
    w'.state.Numbered ∧ w.state.FlagsKept w'.state := by
  refine hrun.invariant (I := fun u => u.state.Numbered ∧ w.state.FlagsKept u.state)
    ⟨hw, fun _ _ h => h, fun _ _ h => h⟩ ?_
  rintro u k u' ⟨hnum, hkept⟩ ⟨hstep, hP⟩
  refine ⟨hstep.numbered hnum, ?_⟩
  cases hstep with
  | call _ hexec => exact hkept.trans (exec_flagsKept hnum hP _ _ hexec)
  | tokens _ _ => exact ⟨hkept.fulfilled, hkept.claimed⟩

end Progress

/-- In every run whose calls meet `ProgressKept`, no flag of a milestone is cleared, every
reported milestone is fulfilled exactly if it has reached its target, and no
adjustment lowers a target. -/
theorem flags_follow_progress {w w' w'' : World} {ks : List Event} {e : Env} {c : Call}
    (hw : Reachable w) (hrun : Run (Guarded Step (OnCalls ProgressKept)) w ks w')
    (hstep : Guarded Step (OnCalls ProgressKept) w' (.call e c) w'') :
    w.state.FlagsKept w''.state ∧ c.FollowsProgress w'.state w''.state := by
  refine ⟨(flagsKept_of_run hw.numbered (hrun.next hstep)).2, ?_⟩
  obtain ⟨hcall, hP⟩ := hstep
  cases hcall with
  | call _ hexec => exact exec_followsProgress hP _ _ hexec

/-- A report that reaches the target. -/
theorem flags_follow_progress_reached : ∃ w w' : World, Reachable w ∧
    Step w (.call (signedBy [⟨7⟩] 2) (.vesting (.reportMilestoneProgress 1 [0] [10]))) w' ∧
      ∃ m, w'.state.milestone? 1 0 = some m ∧ m.Exact := by
  have hplay : (play (initialised ⟨8⟩ ⟨9⟩)
      [opensVault 100, paysIn 50,
        (signedBy [⟨1⟩] 1, .vesting (.setMilestoneVesting 1 ⟨1⟩
          [⟨"", 10, 0, 10000, false, false⟩] ⟨7⟩))]).any
      (fun w => (w.state.get (.milestoneVestingSchedule 1)).any (fun ms : MilestoneVestingSchedule =>
          ms.milestones.all fun m => decide (m.currentValue < m.targetValue)) ∧
        (play w [(signedBy [⟨7⟩] 2, .vesting (.reportMilestoneProgress 1 [0] [10]))]).isSome) =
          true := by decide +kernel
  obtain ⟨w, hw, hchecks⟩ := (Option.any_eq_true _ _).mp hplay
  simp only [decide_eq_true_eq] at hchecks
  obtain ⟨hbelow, hlater⟩ := hchecks
  obtain ⟨ms, hms, hall⟩ := (Option.any_eq_true _ _).mp hbelow
  obtain ⟨w', hw'⟩ := Option.isSome_iff_exists.mp hlater
  have hreach : Reachable w := reachable_of_play hw
  have hguard : ProgressKept w.state (signedBy [⟨7⟩] 2)
      (.vesting (.reportMilestoneProgress 1 [0] [10])) := by
    intro i m hm _
    rw [milestone?_of_get hms] at hm
    exact .inl (by simpa using List.all_eq_true.mp hall m (List.mem_of_getElem? hm))
  have hdone := flags_follow_progress hreach .start (guarded_step_of_play hguard hw')
  exact ⟨w, w', hreach, step_of_play hw', hdone.2 0 (by simp)⟩

/-- A milestone that starts at its target stays unfulfilled when it is reported there. -/
theorem reached_but_not_fulfilled : ¬ ∀ (w w' : World) (e : Env) (c : Call), Reachable w →
    Step w (.call e c) w' → c.FollowsProgress w.state w'.state := by
  have hplay : (play (initialised ⟨8⟩ ⟨9⟩)
      [opensVault 100, paysIn 50,
        (signedBy [⟨1⟩] 1, .vesting (.setMilestoneVesting 1 ⟨1⟩
          [⟨"", 10, 10, 10000, false, false⟩] ⟨7⟩))]).any
      (fun w => (play w [(signedBy [⟨7⟩] 2, .vesting (.reportMilestoneProgress 1 [0] [10]))]).any
        fun w' => (w'.state.milestone? 1 0).any fun m =>
          m.isFulfilled = false ∧ m.targetValue ≤ m.currentValue) = true := by decide +kernel
  obtain ⟨w, hw, hchecks⟩ := (Option.any_eq_true _ _).mp hplay
  obtain ⟨w', hstep, hafter⟩ := (Option.any_eq_true _ _).mp hchecks
  intro h
  obtain ⟨m, hm, hexact⟩ := h w w' _ _ (reachable_of_play hw) (step_of_play hstep) 0 (by simp)
  obtain ⟨hopen, hreached⟩ : m.isFulfilled = false ∧ m.targetValue ≤ m.currentValue := by
    simpa [hm] using hafter
  simp [hexact.mpr hreached] at hopen

/-! ## Each milestone its own share -/

namespace MilestoneVestingSchedule

/-- The last entry of the list has been claimed. -/
def lastClaimed (ms : MilestoneVestingSchedule) : Bool := ms.milestones.getLast?.any (·.claimed)

/-- The basis points of the fulfilled milestones. -/
def fulfilledBps (ms : MilestoneVestingSchedule) : Nat :=
  ((ms.milestones.filter (·.isFulfilled)).map (·.bps)).sum

/-- The claims so far have paid each milestone its own share: until the last entry is
claimed, the claimed ones have been paid their parts, and from then on everything
has been paid and no milestone with a share is left. -/
structure PaidFairly (ms : MilestoneVestingSchedule) : Prop where
  nonempty : ms.milestones ≠ []
  bps : (ms.milestones.map (·.bps)).sum = 10000
  fulfilled : ∀ m ∈ ms.milestones, m.claimed = true → m.isFulfilled = true
  before : ms.lastClaimed = false → ms.claimedAmount = ms.worth (·.claimed)
  after : ms.lastClaimed = true → ms.claimedAmount = ms.totalAmount ∧
    ∀ m ∈ ms.milestones, m.claimed = false → m.bps = 0

end MilestoneVestingSchedule

/-- No milestone is marked as claimed from the start, and the last entry is claimed only
when every milestone with a share is fulfilled. -/
def LastInTurn (s : State) (_ : Env) : Call → Prop
  | .vesting (.setMilestoneVesting _ _ l _) => ∀ m ∈ l, m.claimed = false
  | .vesting (.claimMilestoneInstallments id) => ∀ ms,
      s.get (.milestoneVestingSchedule id) = some ms → ms.lastClaimable = true →
        ∀ m ∈ ms.milestones, m.isFulfilled = false → m.bps = 0
  | _ => True

section Shares

variable {e : Env} {s t : State} {c : Call} {id : Nat} {ms : MilestoneVestingSchedule}
  {l : List MilestoneEntry} {total : Int} {p : MilestoneEntry → Bool}

theorem sum_parts_lt (hl : l ≠ []) : (l.map fun m => Split.part total 10000 m.bps).sum * 10000 <
    total * ((l.map (·.bps)).sum : Nat) + 10000 * l.length := by
  induction l with
  | nil => exact absurd rfl hl
  | cons m l ih =>
      have hpart : Split.part total 10000 m.bps * 10000 < total * m.bps + 10000 :=
        Split.part_mul_lt (by decide)
      cases l with
      | nil => simpa using hpart
      | cons m' l =>
          have hrest := ih (by simp)
          simp only [List.map_cons, List.sum_cons, Nat.cast_add, mul_add, add_mul,
            List.length_cons, Nat.cast_one] at hrest ⊢
          omega

theorem sum_bps_filter_eq (h : ∀ m ∈ l, p m = false → m.bps = 0) :
    ((l.filter p).map (·.bps)).sum = (l.map (·.bps)).sum := by
  induction l with
  | nil => rfl
  | cons m l ih =>
      obtain ⟨hm, hl⟩ := List.forall_mem_cons.mp h
      cases hp : p m with
      | true => simp [hp, ih hl]
      | false => simp [hp, ih hl, hm hp]

namespace MilestoneVestingSchedule

theorem afterClaim_mem {amount : Int} {m' : MilestoneEntry}
    (h : m' ∈ (ms.afterClaim amount).milestones) :
    ∃ m ∈ ms.milestones, m'.bps = m.bps ∧ m'.isFulfilled = m.isFulfilled ∧
      (m'.claimed = true ↔ m.claimed = true ∨ m.isFulfilled = true) := by
  obtain ⟨m, hm, rfl⟩ := List.mem_map.mp h
  refine ⟨m, hm, ?_⟩
  cases hf : m.isFulfilled <;> cases hc : m.claimed <;> simp [MilestoneEntry.claimable, hf, hc]

theorem lastClaimed_afterClaim {amount : Int} :
    (ms.afterClaim amount).lastClaimed = (ms.lastClaimed || ms.lastClaimable) := by
  unfold lastClaimed lastClaimable afterClaim
  rw [List.getLast?_map]
  cases ms.milestones.getLast? with
  | none => rfl
  | some m =>
      cases hf : m.isFulfilled <;> cases hc : m.claimed <;>
        simp [MilestoneEntry.claimable, hf, hc]

/-- Once the last entry has been paid nothing is due. -/
theorem PaidFairly.due_of_lastClaimed (h : ms.PaidFairly) (hlast : ms.lastClaimed = true) :
    ms.due = 0 := by
  have hopen : ms.lastClaimable = false := by
    by_contra hc
    have hclaim : ms.lastClaimable = true := by simpa using hc
    cases hm : ms.milestones.getLast? with
    | none => simp [lastClaimed, hm] at hlast
    | some m =>
        have := last_unclaimed hclaim m hm
        simp [lastClaimed, hm, this] at hlast
  rw [due, if_neg (by simp [hopen]), worth]
  refine List.sum_eq_zero fun x hx => ?_
  obtain ⟨m, hm, rfl⟩ := List.mem_map.mp hx
  obtain ⟨hm, hc⟩ := List.mem_filter.mp hm
  have hunclaimed : m.claimed = false := by
    simp only [MilestoneEntry.claimable, Bool.and_eq_true, Bool.not_eq_true'] at hc
    exact hc.2
  simp [share, Split.part, (h.after hlast).2 m hm hunclaimed]

theorem PaidFairly.afterClaim (h : ms.PaidFairly)
    (hlast : ms.lastClaimable = true → ∀ m ∈ ms.milestones, m.isFulfilled = false → m.bps = 0) :
    (ms.afterClaim ms.due).PaidFairly where
  nonempty := by simpa [MilestoneVestingSchedule.afterClaim] using h.nonempty
  bps := by rw [bps_afterClaim]; exact h.bps
  fulfilled := by
    intro m' hm' hc
    obtain ⟨m, hm, _, hf, hiff⟩ := afterClaim_mem hm'
    rw [hf]
    exact (hiff.mp hc).elim (h.fulfilled m hm) fun h => h
  before := by
    intro hopen
    rw [lastClaimed_afterClaim, Bool.or_eq_false_iff] at hopen
    rw [worth_claimed_afterClaim, ← h.before hopen.1]
    simp [MilestoneVestingSchedule.afterClaim, due, hopen.2]
  after := by
    intro hclosed
    rw [lastClaimed_afterClaim, Bool.or_eq_true] at hclosed
    obtain hwas | hnow := hclosed
    · refine ⟨?_, fun m' hm' hc => ?_⟩
      · simpa [MilestoneVestingSchedule.afterClaim, h.due_of_lastClaimed hwas] using (h.after hwas).1
      · obtain ⟨m, hm, hbps, _, hiff⟩ := afterClaim_mem hm'
        rw [hbps]
        refine (h.after hwas).2 m hm ?_
        by_contra hm'
        simp [hiff.mpr (.inl (by simpa using hm'))] at hc
    · refine ⟨?_, fun m' hm' hc => ?_⟩
      · simp [MilestoneVestingSchedule.afterClaim, due, hnow]
      · obtain ⟨m, hm, hbps, _, hiff⟩ := afterClaim_mem hm'
        rw [hbps]
        refine hlast hnow m hm ?_
        by_contra hm'
        simp [hiff.mpr (.inr (by simpa using hm'))] at hc

/-- After a claim, what has been paid is bounded by the shares of the fulfilled milestones. -/
theorem PaidFairly.bound (h : ms.PaidFairly) (hany : ms.milestones.any (·.isFulfilled) = true)
    (hall : ∀ m ∈ ms.milestones, m.isFulfilled = true → m.claimed = true) :
    ms.claimedAmount * 10000 < ms.totalAmount * ms.fulfilledBps +
      10000 * (ms.milestones.countP (·.isFulfilled) : Nat) := by
  have hsame : ms.milestones.filter (·.claimed) = ms.milestones.filter (·.isFulfilled) := by
    refine List.filter_congr fun m hm => ?_
    exact Bool.eq_iff_iff.mpr ⟨h.fulfilled m hm, hall m hm⟩
  have hne : ms.milestones.filter (·.isFulfilled) ≠ [] := by
    obtain ⟨m, hm, hf⟩ := List.any_eq_true.mp hany
    exact List.ne_nil_of_mem (List.mem_filter.mpr ⟨hm, hf⟩)
  rw [List.countP_eq_length_filter]
  cases hlast : ms.lastClaimed with
  | false =>
      rw [h.before hlast, worth, hsame]
      exact sum_parts_lt hne
  | true =>
      obtain ⟨hpaid, hrest⟩ := h.after hlast
      have hbps : ms.fulfilledBps = 10000 := by
        rw [fulfilledBps, ← hsame, sum_bps_filter_eq hrest, h.bps]
      have hcount := List.length_pos_iff.mpr hne
      rw [hpaid, hbps]
      omega

/-- A new schedule has paid nothing. -/
theorem paidFairly_new {oracle : Address} (hne : l ≠ []) (hbps : (l.map (·.bps)).sum = 10000)
    (hl : ∀ m ∈ l, m.claimed = false) : PaidFairly ⟨total, l, 0, oracle, false⟩ := by
  have hlast : lastClaimed ⟨total, l, 0, oracle, false⟩ = false := by
    cases hm : l.getLast? with
    | none => simp [lastClaimed, hm]
    | some m => simp [lastClaimed, hm, hl m (List.mem_of_getLast? hm)]
  have hnone : l.filter (·.claimed) = [] :=
    List.filter_eq_nil_iff.mpr fun m hm => by simp [hl m hm]
  refine ⟨hne, hbps, fun m hm hc => by simp [hl m hm] at hc, fun _ => ?_, fun hc => ?_⟩
  · simp [worth, hnone]
  · simp [hlast] at hc

/-- Updates of unfulfilled milestones do not touch what has been paid. -/
theorem PaidFairly.updates {α : Type} {index : α → Nat} {f : α → MilestoneEntry → MilestoneEntry}
    {as : List α} (h : ms.PaidFairly) (hupd : Updates index f as ms.milestones l)
    (hf : ∀ a m, (f a m).terms = m.terms) :
    ({ ms with milestones := l } : MilestoneVestingSchedule).PaidFairly := by
  have hterms : l.map (·.terms) = ms.milestones.map (·.terms) := hupd.map_eq hf
  have hentry : ∀ m' ∈ l, ∃ m ∈ ms.milestones, m'.terms = m.terms ∧
      (m.isFulfilled = true → m' = m) := by
    intro m' hm'
    obtain ⟨i, hi, rfl⟩ := List.getElem_of_mem hm'
    have hlt : i < ms.milestones.length := hupd.length ▸ hi
    obtain ⟨m', hm', hone⟩ := hupd.entry i ms.milestones[i] (by simp [hlt])
    obtain rfl : m' = l[i] := by simpa [hi] using hm'.symm
    exact ⟨_, List.getElem_mem hlt, hone.keeps hf, hone.eq_of_fulfilled⟩
  have hlast : ({ ms with milestones := l } : MilestoneVestingSchedule).lastClaimed =
      ms.lastClaimed := by
    have hget := congrArg (fun x => x.getLast?.any (·.2)) hterms
    simp only [List.getLast?_map, Option.any_map] at hget
    exact hget
  refine ⟨fun hl => ?_, ?_, fun m' hm' hc => ?_, fun hopen => ?_, fun hclosed => ?_⟩
  · obtain rfl : l = [] := hl
    exact h.nonempty (List.length_eq_zero_iff.mp hupd.length.symm)
  · have hbps := congrArg (List.map Prod.fst) hterms
    simp only [List.map_map] at hbps
    exact (congrArg List.sum hbps).trans h.bps
  · obtain ⟨m, hm, ht, hkept⟩ := hentry m' hm'
    have hful := h.fulfilled m hm ((congrArg Prod.snd ht).symm.trans hc)
    exact hkept hful ▸ hful
  · refine (h.before (hlast ▸ hopen)).trans ?_
    rw [worth_claimed_eq, worth_claimed_eq, hterms]
  · obtain ⟨hpaid, hrest⟩ := h.after (hlast ▸ hclosed)
    refine ⟨hpaid, fun m' hm' hc => ?_⟩
    obtain ⟨m, hm, ht, -⟩ := hentry m' hm'
    exact (congrArg Prod.fst ht).trans (hrest m hm ((congrArg Prod.snd ht).symm.trans hc))

end MilestoneVestingSchedule

/-- All the milestone schedules of all the vaults have paid fairly so far. -/
def State.PaidFairly (s : State) : Prop :=
  ∀ id ms, s.get (.milestoneVestingSchedule id) = some ms → ms.PaidFairly

theorem exec_paidFairly (hnum : s.Numbered) (hs : s.PaidFairly) (hP : LastInTurn s e c) :
    wp (exec c) (fun _ t => t.PaidFairly) e s := by
  intro _ t hexec id ms' hms'
  obtain hsame | ⟨o, rfl, hstep⟩ := exec_milestones id hnum _ _ hexec
  · exact hs id ms' (hsame ▸ hms')
  cases hstep with
  | set _ _ hne hbps _ hafter =>
      obtain rfl := Option.some.inj (hafter.symm.trans hms')
      exact MilestoneVestingSchedule.paidFairly_new hne hbps hP
  | @evolve _ ms _ hid hms hafter hev =>
      obtain rfl := Option.some.inj (hafter.symm.trans hms')
      have h := hs id ms hms
      cases o <;> simp only [VestingCall.Evolves] at hev
      case pauseMilestoneVesting => exact hev ▸ ⟨h.1, h.2, h.3, h.4, h.5⟩
      case resumeMilestoneVesting => exact hev ▸ ⟨h.1, h.2, h.3, h.4, h.5⟩
      case adjustMilestoneTargets =>
        obtain ⟨l, hupd, rfl⟩ := hev
        exact h.updates hupd fun _ _ => rfl
      case emergencyFulfillMilestones =>
        obtain ⟨l, hupd, rfl⟩ := hev
        exact h.updates hupd fun _ _ => rfl
      case reportMilestoneProgress =>
        obtain ⟨_, l, hupd, rfl⟩ := hev
        exact h.updates hupd fun _ _ => rfl
      case claimMilestoneInstallments i =>
        obtain ⟨_, rfl⟩ := hev
        obtain rfl : i = id := by simpa [VestingCall.footprint] using hid
        exact h.afterClaim (hP ms hms)

end Shares

/-- In every run in which no milestone starts as claimed and the last entry is claimed
only when every milestone with a share is fulfilled, a claim leaves at most the
shares of the fulfilled milestones paid, and a schedule that is fulfilled and
claimed throughout has paid exactly its total. -/
theorem milestones_pay_their_shares {w₀ w : World} {ks : List Event} {id : Nat} (h₀ : Genesis w₀)
    (hrun : Run (Guarded Step (OnCalls LastInTurn)) w₀ ks w) :
    (∀ ms, w.state.get (.milestoneVestingSchedule id) = some ms →
      (∀ m ∈ ms.milestones, m.isFulfilled = true ∧ m.claimed = true) →
        ms.claimedAmount = ms.totalAmount) ∧
    ∀ e w' ms', Guarded Step (OnCalls LastInTurn) w
        (.call e (.vesting (.claimMilestoneInstallments id))) w' →
      w'.state.get (.milestoneVestingSchedule id) = some ms' →
        ms'.claimedAmount * 10000 < ms'.totalAmount * ms'.fulfilledBps +
          10000 * (ms'.milestones.countP (·.isFulfilled) : Nat) := by
  have hinv : ∀ {w ks}, Run (Guarded Step (OnCalls LastInTurn)) w₀ ks w → w.state.PaidFairly :=
    fun hrun => invariant_of_calls h₀ hrun
      (fun id ms hms => by simp [h₀.get (k := .milestoneVestingSchedule id) (by simp)] at hms)
      exec_paidFairly fun _ h => h
  refine ⟨fun ms hms hall => ?_, fun e w' ms' hstep hms' => ?_⟩
  · have h := hinv hrun id ms hms
    refine (h.after ?_).1
    obtain ⟨m, hm⟩ := Option.isSome_iff_exists.mp (List.getLast?_isSome.mpr h.nonempty)
    simp [MilestoneVestingSchedule.lastClaimed, hm, (hall m (List.mem_of_getLast? hm)).2]
  · have h' := hinv (hrun.next hstep) id ms' hms'
    obtain ⟨hcall, -⟩ := hstep
    cases hcall with
    | @call _ _ t _ hexec =>
        obtain ⟨amount, hclaim⟩ : ∃ amount, claimMilestoneInstallments id e w.state =
            .ok (amount, t) := by simpa [exec, execVesting] using hexec
        obtain ⟨_, ms, _, hms, rfl, hany, hafter⟩ := claimMilestoneInstallments_spec _ _ hclaim
        obtain rfl := Option.some.inj (hafter.symm.trans hms')
        refine h'.bound ?_ fun m' hm' hf => ?_
        · obtain ⟨m, hm, hc⟩ := List.any_eq_true.mp hany
          simp only [MilestoneEntry.claimable, Bool.and_eq_true] at hc
          refine List.any_eq_true.mpr ⟨_, List.mem_map_of_mem hm, ?_⟩
          split <;> exact hc.1
        · obtain ⟨m, _, _, hsame, hiff⟩ := MilestoneVestingSchedule.afterClaim_mem hm'
          exact hiff.mpr (.inr (hsame ▸ hf))

/-- The first of two milestones is claimed, then the second. -/
theorem milestones_pay_their_shares_in_turn : ∃ (w w' : World) (ms : MilestoneVestingSchedule),
    Reachable w ∧ Step w (.call (signedBy [⟨2⟩] 90000) (.vesting (.claimMilestoneInstallments 1))) w' ∧
      w'.state.get (.milestoneVestingSchedule 1) = some ms ∧
        ms.claimedAmount * 10000 < ms.totalAmount * ms.fulfilledBps +
          10000 * (ms.milestones.countP (·.isFulfilled) : Nat) := by
  have hplay : (play (initialised ⟨8⟩ ⟨9⟩)
      [opensVault 100, paysIn 50,
        (signedBy [⟨1⟩] 1, .vesting (.setMilestoneVesting 1 ⟨1⟩
          [⟨"", 10, 0, 5000, false, false⟩, ⟨"", 10, 0, 5000, false, false⟩] ⟨7⟩)),
        (signedBy [⟨7⟩] 2, .vesting (.reportMilestoneProgress 1 [0] [10])),
        (signedBy [⟨7⟩] 90000, .release (.triggerRelease 1))]).any
      (fun w => (w.state.get (.milestoneVestingSchedule 1)).any
          (fun ms : MilestoneVestingSchedule => !ms.lastClaimable) ∧
        (play w [(signedBy [⟨2⟩] 90000, .vesting (.claimMilestoneInstallments 1))]).any fun w' =>
          (w'.state.get (.milestoneVestingSchedule 1)).isSome) = true := by decide +kernel
  obtain ⟨w, hw, hchecks⟩ := (Option.any_eq_true _ _).mp hplay
  simp only [decide_eq_true_eq] at hchecks
  obtain ⟨hopen, hlater⟩ := hchecks
  obtain ⟨ms, hms, hlast⟩ := (Option.any_eq_true _ _).mp hopen
  obtain ⟨w', hw', hafter⟩ := (Option.any_eq_true _ _).mp hlater
  obtain ⟨ms', hms'⟩ := Option.isSome_iff_exists.mp hafter
  have h₀ : Genesis (initialised ⟨8⟩ ⟨9⟩) := genesis_initialised (by decide) (by decide)
  have hguard : LastInTurn w.state (signedBy [⟨2⟩] 90000)
      (.vesting (.claimMilestoneInstallments 1)) := by
    intro x hx hclaim
    obtain rfl := Option.some.inj (hms.symm.trans hx)
    simp [hclaim] at hlast
  have hbound := (@milestones_pay_their_shares _ _ _ 1 h₀
    (guarded_of_play (by simp [LastInTurn]) hw)).2 _ w' ms' (guarded_step_of_play hguard hw') hms'
  exact ⟨w, w', ms', reachable_of_play hw, step_of_play hw', hms', hbound⟩

/-- The last of two equal milestones is claimed first and takes everything. -/
theorem last_milestone_takes_all : ¬ ∀ (w w' : World) (e : Env) (id : Nat)
    (ms : MilestoneVestingSchedule), Reachable w →
      Step w (.call e (.vesting (.claimMilestoneInstallments id))) w' →
        w'.state.get (.milestoneVestingSchedule id) = some ms →
          ms.claimedAmount * 10000 < ms.totalAmount * ms.fulfilledBps +
            10000 * (ms.milestones.countP (·.isFulfilled) : Nat) := by
  have hplay : (play (initialised ⟨8⟩ ⟨9⟩)
      [opensVault 100, paysIn 50,
        (signedBy [⟨1⟩] 1, .vesting (.setMilestoneVesting 1 ⟨1⟩
          [⟨"", 10, 0, 5000, false, false⟩, ⟨"", 10, 0, 5000, false, false⟩] ⟨7⟩)),
        (signedBy [⟨7⟩] 2, .vesting (.reportMilestoneProgress 1 [1] [10])),
        (signedBy [⟨7⟩] 90000, .release (.triggerRelease 1))]).any
      (fun w => (play w [(signedBy [⟨2⟩] 90000, .vesting (.claimMilestoneInstallments 1))]).any
        fun w' => (w'.state.get (.milestoneVestingSchedule 1)).any
          fun ms : MilestoneVestingSchedule => ms.claimedAmount = 50 ∧ ms.totalAmount = 50 ∧
            ms.fulfilledBps = 5000 ∧ ms.milestones.countP (·.isFulfilled) = 1) = true := by
    decide +kernel
  obtain ⟨w, hw, hchecks⟩ := (Option.any_eq_true _ _).mp hplay
  obtain ⟨w', hstep, hafter⟩ := (Option.any_eq_true _ _).mp hchecks
  obtain ⟨ms, hms, hvalues⟩ := (Option.any_eq_true _ _).mp hafter
  obtain ⟨hclaimed, htotal, hbps, hcount⟩ := of_decide_eq_true hvalues
  intro h
  have hbound := h w w' _ 1 ms (reachable_of_play hw) (step_of_play hstep) hms
  rw [hclaimed, htotal, hbps, hcount] at hbound
  omega

end Heirloom
