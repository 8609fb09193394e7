import Heirloom.Results.VestedAmounts

/-!
# What is left of all schedules

`clawback_unvested` adds up the installments that are left, `get_total_unvested_amount` what each
total has left after the installments claimed. The one leaves out what the division of a total
into installments leaves over, the other counts it.

* `unvested_totals_agree_iff`: the clawback returns what the getter says, and the getter says 0
  after it, if and only if every total is a multiple of its number of installments.
* `rounding_left_over`: a schedule of 100 in three installments.
-/

namespace Heirloom

open Transaction

/-- The sum of `f` over the schedules `0 … count - 1` of vault `id`. -/
def State.sumSchedules (s : State) (id count : Nat) (f : VestingSchedule → Int) : Int :=
  ((List.range count).map fun i => ((s.get (.vestingSchedule id i)).map f).getD 0).sum

/-- The installments that are left. -/
def VestingSchedule.unpaid (x : VestingSchedule) : Int :=
  x.perInstallment * ((x.numInstallments - x.claimedInstallments : Nat) : Int)

/-- What the division into installments leaves over. -/
def VestingSchedule.leftOver (x : VestingSchedule) : Int :=
  x.totalAmount - x.perInstallment * x.numInstallments

def VestingSchedule.closed (x : VestingSchedule) : VestingSchedule :=
  { x with claimedInstallments := x.numInstallments }

/-- A schedule as `set_vesting_schedule` makes it, but for its count. -/
structure VestingSchedule.Sound (x : VestingSchedule) : Prop where
  total : 0 < x.totalAmount
  installments : x.numInstallments ≠ 0

theorem schedulesSound_of_reachable {w : World} (h : Reachable w) :
    w.state.EverySchedule VestingSchedule.Sound :=
  everySchedule_of_reachable h (fun _ _ _ _ _ hne hpos => ⟨hpos, hne.2⟩) fun _ _ h => ⟨h.1, h.2⟩

section Totals

variable {e : Env} {s t : State} {id count : Nat} {x : VestingSchedule}

theorem VestingSchedule.unvested_eq (h : x.claimedInstallments ≤ x.numInstallments) :
    x.unvested = x.unpaid + x.leftOver := by
  have hsplit : x.unpaid + x.perInstallment * (x.claimedInstallments : Int) =
      x.perInstallment * (x.numInstallments : Int) := by
    rw [VestingSchedule.unpaid, ← Int.mul_add]
    congr 1
    omega
  simp only [VestingSchedule.unvested, VestingSchedule.leftOver, VestingSchedule.perInstallment] at *
  omega

namespace VestingSchedule.Sound

theorem perInstallment_nonneg (h : x.Sound) : 0 ≤ x.perInstallment :=
  Heirloom.perInstallment_nonneg h.total.le

theorem leftOver_nonneg (h : x.Sound) : 0 ≤ x.leftOver :=
  sub_nonneg.mpr (VestingSchedule.perInstallment_mul_le h.total.le le_rfl)

/-- Nothing is left over exactly if the installments divide the total. -/
theorem leftOver_eq_zero_iff (h : x.Sound) :
    x.leftOver = 0 ↔ (x.numInstallments : Int) ∣ x.totalAmount := by
  have hfloor : x.perInstallment = x.totalAmount / x.numInstallments :=
    Int.tdiv_eq_ediv_of_nonneg h.total.le
  rw [VestingSchedule.leftOver, hfloor, Int.dvd_iff_emod_eq_zero, Int.emod_def, mul_comm]

end VestingSchedule.Sound

/-! ## The two loops -/

/-- The schedules that a loop finds. -/
def State.AllSchedules (s : State) (id count : Nat) (P : VestingSchedule → Prop) : Prop :=
  ∀ i < count, ∀ x, s.get (.vestingSchedule id i) = some x → P x

theorem sumSchedules_congr {f g : VestingSchedule → Int}
    (h : s.AllSchedules id count fun x => f x = g x) :
    s.sumSchedules id count f = s.sumSchedules id count g := by
  refine congrArg List.sum (List.map_congr_left fun i hi => ?_)
  cases hx : s.get (.vestingSchedule id i) with
  | none => rfl
  | some x => exact h i (List.mem_range.mp hi) x hx

theorem sumSchedules_nonneg {f : VestingSchedule → Int}
    (h : s.AllSchedules id count fun x => 0 ≤ f x) : 0 ≤ s.sumSchedules id count f := by
  refine List.sum_nonneg fun y hy => ?_
  obtain ⟨i, hi, rfl⟩ := List.mem_map.mp hy
  cases hx : s.get (.vestingSchedule id i) with
  | none => exact le_rfl
  | some x => exact h i (List.mem_range.mp hi) x hx

/-- A sum of terms that are not negative is zero only if they all are. -/
theorem sumSchedules_eq_zero {f : VestingSchedule → Int}
    (h : s.AllSchedules id count fun x => 0 ≤ f x) (hsum : s.sumSchedules id count f = 0) :
    s.AllSchedules id count fun x => f x = 0 := by
  intro i hi x hx
  have hmem : f x ∈ (List.range count).map fun i =>
      ((s.get (.vestingSchedule id i)).map f).getD 0 :=
    List.mem_map.mpr ⟨i, List.mem_range.mpr hi, by rw [hx]; rfl⟩
  refine le_antisymm ?_ (h i hi x hx)
  rw [← hsum]
  refine List.single_le_sum (fun y hy => ?_) _ hmem
  obtain ⟨j, hj, rfl⟩ := List.mem_map.mp hy
  cases hy : s.get (.vestingSchedule id j) with
  | none => exact le_rfl
  | some y => exact h j (List.mem_range.mp hj) y hy

/-- Saturating addition of terms that are not negative. -/
theorem foldl_clampI128 {α : Type} {as : List α} {f : α → Option Int} {b : Int}
    (has : ∀ a ∈ as, 0 ≤ (f a).getD 0) (hb : 0 ≤ b) (hmax : b ≤ i128Max) :
    as.foldl (fun total a => (f a).elim total fun y => clampI128 (total + y)) b =
      min (b + (as.map fun a => (f a).getD 0).sum) i128Max := by
  induction as generalizing b with
  | nil => simpa using hmax
  | cons a as ih =>
      obtain ⟨ha, hrest⟩ := List.forall_mem_cons.mp has
      have hsum : 0 ≤ (as.map fun a => (f a).getD 0).sum :=
        List.sum_nonneg (List.forall_mem_map.mpr hrest)
      have hmin : i128Min ≤ 0 := by decide
      have hmax' : (0 : Int) ≤ i128Max := by decide
      have hhead : (f a).elim b (fun y => clampI128 (b + y)) = min (b + (f a).getD 0) i128Max := by
        cases hf : f a with
        | none => simpa using hmax
        | some y =>
            have hy : 0 ≤ y := by simpa [hf] using ha
            exact max_eq_right (le_min (by omega) (by omega))
      rw [List.foldl_cons, hhead, ih hrest (by omega) (min_le_right _ _), List.map_cons,
        List.sum_cons]
      omega

theorem foldl_add {α : Type} {as : List α} {f : α → Int} {b : Int} :
    as.foldl (fun total a => total + f a) b = b + (as.map f).sum := by
  induction as generalizing b with
  | nil => simp
  | cons a as ih =>
      rw [List.foldl_cons, ih, List.map_cons, List.sum_cons]
      omega

/-- What schedule `i` has not paid out yet, if there is one. -/
def State.unvestedAt (s : State) (id i : Nat) : Option Int :=
  (s.get (.vestingSchedule id i)).map fun x => clampI128 x.unvested

theorem ok_addUnclaimed {i : Nat} {total y : Int} :
    addUnclaimed id total i e s = .ok (y, t) ↔
      (∀ x, s.get (.vestingSchedule id i) = some x → x.numInstallments ≠ 0 ∧
        InI128 (x.perInstallment * x.claimedInstallments)) ∧
      y = (s.unvestedAt id i).elim total (fun z => clampI128 (total + z)) ∧ s = t := by
  simp only [State.unvestedAt, addUnclaimed, VestingSchedule.unclaimed, Tx.ok_bind, ok_storageGet,
    Tx.ok_ifSomeElse, Tx.ok_pure, ok_divI, ok_i128, Nat.cast_ne_zero]
  cases hx : s.get (.vestingSchedule id i) with
  | none =>
      constructor
      · rintro ⟨_, _, ⟨rfl, rfl⟩, ⟨_, hsome, _⟩ | ⟨_, rfl, rfl⟩⟩
        · cases hsome
        · exact ⟨by simp, rfl, rfl⟩
      · rintro ⟨-, rfl, rfl⟩
        exact ⟨_, _, ⟨rfl, rfl⟩, .inr ⟨rfl, rfl, rfl⟩⟩
  | some x =>
      constructor
      · rintro ⟨_, _, ⟨rfl, rfl⟩, ⟨_, hsome, _, _, ⟨_, _, ⟨hne, rfl, rfl⟩, _, _, ⟨hfits, rfl, rfl⟩,
          rfl, rfl⟩, rfl, rfl⟩ | ⟨hnone, _⟩⟩
        · obtain rfl := Option.some.inj hsome
          refine ⟨fun z hz => ?_, rfl, rfl⟩
          obtain rfl := Option.some.inj hz
          exact ⟨hne, hfits⟩
        · cases hnone
      · rintro ⟨hall, rfl, rfl⟩
        obtain ⟨hne, hfits⟩ := hall x rfl
        exact ⟨_, _, ⟨rfl, rfl⟩, .inl ⟨x, rfl, _, _, ⟨_, _, ⟨hne, rfl, rfl⟩, _, _, ⟨hfits, rfl, rfl⟩,
          rfl, rfl⟩, rfl, rfl⟩⟩

theorem ok_unclaimedLoop {as : List Nat} {b y : Int} :
    Tx.foldEach as b (addUnclaimed id) e s = .ok (y, t) ↔
      (∀ i ∈ as, ∀ x, s.get (.vestingSchedule id i) = some x → x.numInstallments ≠ 0 ∧
        InI128 (x.perInstallment * x.claimedInstallments)) ∧
      y = as.foldl (fun total i => (s.unvestedAt id i).elim total
        fun z => clampI128 (total + z)) b ∧ s = t :=
  Tx.ok_foldEach_foldl fun _ _ _ _ => ok_addUnclaimed

/-- What the getter returns, for sound schedules that have not claimed too much. -/
theorem ok_getTotalUnvestedAmount {y : Int}
    (hcount : count = (s.get (.vestingScheduleCount id)).getD 0)
    (hsound : s.AllSchedules id count fun x => x.Sound ∧ x.claimedInstallments ≤ x.numInstallments) :
    getTotalUnvestedAmount id e s = .ok (y, t) ↔
      (s.AllSchedules id count fun x => InI128 (x.perInstallment * x.claimedInstallments)) ∧
      y = min (s.sumSchedules id count fun x => min x.unvested i128Max) i128Max ∧ s = t := by
  have hclamp : ∀ i ∈ List.range count, (s.unvestedAt id i).getD 0 =
        ((s.get (.vestingSchedule id i)).map fun x => min x.unvested i128Max).getD 0 ∧
      0 ≤ (s.unvestedAt id i).getD 0 := by
    intro i hi
    unfold State.unvestedAt
    cases hx : s.get (.vestingSchedule id i) with
    | none => exact ⟨rfl, le_rfl⟩
    | some x =>
        obtain ⟨hx, hle⟩ := hsound i (List.mem_range.mp hi) x hx
        have hunvested := VestingSchedule.unvested_eq hle
        have hunpaid : 0 ≤ x.unpaid := Int.mul_nonneg hx.perInstallment_nonneg (by omega)
        have hrest := hx.leftOver_nonneg
        have hmin : i128Min ≤ 0 := by decide
        have hmax : (0 : Int) ≤ i128Max := by decide
        have hpos : 0 ≤ min x.unvested i128Max := le_min (by omega) hmax
        have heq : clampI128 x.unvested = min x.unvested i128Max := max_eq_right (hmin.trans hpos)
        exact ⟨heq, le_of_le_of_eq hpos heq.symm⟩
  have hsum : ((List.range count).map fun i => (s.unvestedAt id i).getD 0).sum =
      s.sumSchedules id count fun x => min x.unvested i128Max :=
    congrArg List.sum (List.map_congr_left fun i hi => (hclamp i hi).1)
  have hfold := foldl_clampI128 (f := s.unvestedAt id) (fun i hi => (hclamp i hi).2) le_rfl
    (by decide)
  rw [hsum, zero_add] at hfold
  simp only [getTotalUnvestedAmount, Tx.ok_bind, ok_storageGet]
  constructor
  · rintro ⟨_, _, ⟨rfl, rfl⟩, hok⟩
    rw [← hcount] at hok
    obtain ⟨hall, hy, rfl⟩ := ok_unclaimedLoop.mp hok
    exact ⟨fun i hi x hx => (hall i (List.mem_range.mpr hi) x hx).2, hy.trans hfold, rfl⟩
  · rintro ⟨hfits, rfl, rfl⟩
    refine ⟨_, _, ⟨rfl, rfl⟩, ?_⟩
    rw [← hcount]
    refine ok_unclaimedLoop.mpr ⟨fun i hi x hx => ?_, hfold.symm, rfl⟩
    have hi' := List.mem_range.mp hi
    exact ⟨(hsound i hi' x hx).1.installments, hfits i hi' x hx⟩

/-- What the clawback adds up. -/
theorem totalUnvested_spec :
    wp (totalUnvested id count) (fun y t => t = s ∧ y = s.sumSchedules id count (·.unpaid) ∧
      y ≤ i128Max ∧ s.AllSchedules id count fun x => x.claimedInstallments ≤ x.numInstallments)
      e s := by
  have hsum : wp (totalUnvested id count) (fun y t => t = s ∧
      y = (List.range count).foldl (fun total i =>
        total + ((s.get (.vestingSchedule id i)).map (·.unpaid)).getD 0) 0 ∧
      ∀ i ∈ List.range count, ∀ x, s.get (.vestingSchedule id i) = some x →
        x.claimedInstallments ≤ x.numInstallments) e s := by
    refine Tx.wp_foldEach_foldl fun total i => ?_
    simp only [Tx.wp_bind, wp_storageGet, Tx.wp_ifSomeElse, Tx.wp_ite, wp_subU, wp_divI, wp_i128,
      Tx.wp_pure]
    refine ⟨fun x hx hle => ?_, fun hnone => ⟨trivial, by simp [hnone], by simp [hnone]⟩⟩
    have hwithin : ∀ y, s.get (.vestingSchedule id i) = some y →
        y.claimedInstallments ≤ y.numInstallments := by
      intro y hy
      obtain rfl := Option.some.inj (hx.symm.trans hy)
      exact hle
    rw [hx]
    refine ⟨fun _ _ _ _ => ⟨trivial, rfl, hx ▸ hwithin⟩, fun hnone => ⟨trivial, ?_, hx ▸ hwithin⟩⟩
    have hzero : x.numInstallments - x.claimedInstallments = 0 := by omega
    simp [VestingSchedule.unpaid, hzero]
  have hmax : wp (totalUnvested id count) (fun y _ => y ≤ i128Max) e s := by
    refine Tx.wp_mono (Tx.wp_foldEach (I := fun y t => y ≤ i128Max ∧ t = s) ?_ ⟨by decide, rfl⟩)
      fun _ _ h => h.1
    rintro i _ total _ ⟨htotal, rfl⟩
    simp only [Tx.wp_bind, wp_storageGet, Tx.wp_ifSomeElse, Tx.wp_ite, wp_subU, wp_divI, wp_i128,
      Tx.wp_pure]
    exact ⟨fun x _ _ => ⟨fun _ _ _ hfits => ⟨hfits.2, trivial⟩, fun _ => ⟨htotal, trivial⟩⟩,
      fun _ => ⟨htotal, trivial⟩⟩
  refine Tx.wp_mono (Tx.wp_and hsum hmax) ?_
  rintro y t ⟨⟨rfl, hy, hwithin⟩, hle⟩
  refine ⟨rfl, ?_, hle, fun i hi => hwithin i (List.mem_range.mpr hi)⟩
  rw [hy, foldl_add, zero_add]
  rfl

/-- The second loop leaves every schedule fully claimed. -/
theorem closeSchedules_closes :
    wp (closeSchedules id count) (fun _ t => (∀ i < count, t.get (.vestingSchedule id i) =
      (s.get (.vestingSchedule id i)).map (·.closed)) ∧
        t.get (.vestingScheduleCount id) = s.get (.vestingScheduleCount id)) e s := by
  -- each schedule is as it was or closed, and those the loop has reached are closed
  have hkept : wp (closeSchedules id count) (fun _ t => (∀ i,
      t.get (.vestingSchedule id i) = s.get (.vestingSchedule id i) ∨
        t.get (.vestingSchedule id i) = (s.get (.vestingSchedule id i)).map (·.closed)) ∧
      t.get (.vestingScheduleCount id) = s.get (.vestingScheduleCount id)) e s := by
    refine Tx.wp_forEach (I := fun t : State => (∀ i,
      t.get (.vestingSchedule id i) = s.get (.vestingSchedule id i) ∨
        t.get (.vestingSchedule id i) = (s.get (.vestingSchedule id i)).map (·.closed)) ∧
      t.get (.vestingScheduleCount id) = s.get (.vestingScheduleCount id))
      (fun j _ t ⟨hall, hcount⟩ => ?_) ⟨fun _ => .inl rfl, rfl⟩
    simp only [Tx.wp_bind, wp_storageGet, Tx.wp_ifSome, wp_storageSet]
    refine ⟨fun x hx => ⟨fun i => ?_, by simpa using hcount⟩, fun _ => ⟨hall, hcount⟩⟩
    by_cases hij : i = j
    · subst hij
      refine .inr ?_
      rw [State.get_put_self]
      rcases hall i with h | h
      · rw [← h, hx]
        rfl
      · obtain ⟨y, hy, rfl⟩ := Option.map_eq_some_iff.mp (h.symm.trans hx)
        rw [hy]
        rfl
    · rw [State.get_put_of_ne (by simpa using hij)]
      exact hall i
  have hclosed : wp (closeSchedules id count) (fun _ t => ∀ i ∈ List.range count,
      ∀ x, t.get (.vestingSchedule id i) = some x → x.closed = x) e s := by
    refine Tx.wp_forEach_all (P := fun i (t : State) => ∀ x : VestingSchedule,
      t.get (.vestingSchedule id i) = some x → x.closed = x) (fun i t => ?_) fun j i t hi => ?_
    all_goals simp only [Tx.wp_bind, wp_storageGet, Tx.wp_ifSome, wp_storageSet]
    · refine ⟨fun x _ y hy => ?_, fun hnone y hy => by simp [hnone] at hy⟩
      rw [State.get_put_self] at hy
      obtain rfl := Option.some.inj hy
      rfl
    · refine ⟨fun x _ y hy => ?_, fun _ => hi⟩
      by_cases hij : i = j
      · subst hij
        rw [State.get_put_self] at hy
        obtain rfl := Option.some.inj hy
        rfl
      · exact hi y (by rwa [State.get_put_of_ne (by simpa using hij)] at hy)
  refine Tx.wp_mono (Tx.wp_and hkept hclosed) ?_
  rintro _ t ⟨⟨hall, hcount⟩, hdone⟩
  refine ⟨fun i hi => ?_, hcount⟩
  rcases hall i with h | h
  swap
  · exact h
  rw [h]
  cases hx : s.get (.vestingSchedule id i) with
  | none => rfl
  | some x => exact congrArg some (hdone i (List.mem_range.mpr hi) x (h.trans hx)).symm

theorem clawbackUnvested_totals {caller : Address}
    (hcount : count = (s.get (.vestingScheduleCount id)).getD 0) :
    wp (clawbackUnvested id caller) (fun y t =>
      (y = s.sumSchedules id count (·.unpaid) ∧ y ≤ i128Max ∧
        s.AllSchedules id count fun x => x.claimedInstallments ≤ x.numInstallments) ∧
      (∀ i < count, t.get (.vestingSchedule id i) =
        (s.get (.vestingSchedule id i)).map (·.closed)) ∧
      t.get (.vestingScheduleCount id) = s.get (.vestingScheduleCount id)) e s := by
  simp only [clawbackUnvested, Tx.wp_bind, wp_assertNotPaused, wp_requireAuth, wp_loadVault,
    wp_require, wp_storageGet]
  intro _ _ v _ _ _ _
  rw [← hcount]
  refine Tx.wp_mono totalUnvested_spec ?_
  rintro y _ ⟨rfl, hy⟩
  simp only [wp_transfer, wp_i128]
  intro _ _ _ _
  refine Tx.wp_mono closeSchedules_closes ?_
  rintro _ t ⟨hclosed, hsame⟩
  simp only [wp_saveVault, Tx.wp_pure]
  exact ⟨hy, fun i hi => by simpa using hclosed i hi, by simpa using hsame⟩

end Totals

/-- Whenever a clawback succeeds: it returns what the getter says before it and the getter says 0
after it if and only if every total is a multiple of its number of installments (and an `i128`,
as it is by its type). -/
theorem unvested_totals_agree_iff {w : World} {e : Env} {id : Nat} {caller : Address} {y : Int}
    {t : State} (hw : Reachable w) (hok : clawbackUnvested id caller e w.state = .ok (y, t)) :
    (getTotalUnvestedAmount id e w.state = .ok (y, w.state) ∧
      getTotalUnvestedAmount id e t = .ok (0, t)) ↔
    w.state.AllSchedules id ((w.state.get (.vestingScheduleCount id)).getD 0) fun x =>
      (x.numInstallments : Int) ∣ x.totalAmount ∧ x.totalAmount ≤ i128Max := by
  set count := (w.state.get (.vestingScheduleCount id)).getD 0 with hcount
  have hsound := schedulesSound_of_reachable hw
  obtain ⟨⟨hy, hmax, hwithin⟩, hclosed, hsame⟩ := clawbackUnvested_totals hcount _ _ hok
  have hbefore : w.state.AllSchedules id count fun x =>
      x.Sound ∧ x.claimedInstallments ≤ x.numInstallments :=
    fun i hi x hx => ⟨hsound id i x hx, hwithin i hi x hx⟩
  have hafter : t.AllSchedules id count fun x =>
      x.Sound ∧ x.claimedInstallments ≤ x.numInstallments := by
    intro i hi x hx
    obtain ⟨z, hz, rfl⟩ := Option.map_eq_some_iff.mp ((hclosed i hi).symm.trans hx)
    exact ⟨⟨(hsound id i z hz).1, (hsound id i z hz).2⟩, le_rfl⟩
  have hcount' : count = (t.get (.vestingScheduleCount id)).getD 0 := by rw [hsame]
  have hmaxpos : (0 : Int) < i128Max := by decide
  -- after the clawback the schedules have left what the division leaves over
  have hrest : (t.sumSchedules id count fun x => min x.unvested i128Max) =
      w.state.sumSchedules id count fun x => min x.leftOver i128Max := by
    refine congrArg List.sum (List.map_congr_left fun i hi => ?_)
    rw [hclosed i (List.mem_range.mp hi), Option.map_map]
    rfl
  rw [ok_getTotalUnvestedAmount hcount hbefore, ok_getTotalUnvestedAmount hcount' hafter, hrest]
  constructor
  · rintro ⟨-, hfits, hzero, -⟩ i hi x hx
    have hnonneg : w.state.AllSchedules id count fun x => 0 ≤ min x.leftOver i128Max :=
      fun j _ z hz => le_min (hsound id j z hz).leftOver_nonneg hmaxpos.le
    have hsum : (w.state.sumSchedules id count fun x => min x.leftOver i128Max) = 0 := by
      have := sumSchedules_nonneg hnonneg
      omega
    have hnone : x.leftOver = 0 := by
      have : min x.leftOver i128Max = 0 := sumSchedules_eq_zero hnonneg hsum i hi x hx
      omega
    have hproduct : InI128 (x.perInstallment * x.numInstallments) :=
      hfits i hi x.closed (by rw [hclosed i hi, hx]; rfl)
    refine ⟨(hsound id i x hx).leftOver_eq_zero_iff.mp hnone, ?_⟩
    have htotal : x.totalAmount = x.perInstallment * x.numInstallments := sub_eq_zero.mp hnone
    exact htotal ▸ hproduct.2
  · intro hall
    have hnone : w.state.AllSchedules id count fun x => x.leftOver = 0 :=
      fun i hi x hx => (hsound id i x hx).leftOver_eq_zero_iff.mpr (hall i hi x hx).1
    -- no product of the getter leaves the range
    have hproduct : w.state.AllSchedules id count fun x => ∀ n ≤ x.numInstallments,
        InI128 (x.perInstallment * (n : Int)) := by
      intro i hi x hx n hn
      have hx' := hsound id i x hx
      have hle := (VestingSchedule.perInstallment_mul_le hx'.total.le hn).trans (hall i hi x hx).2
      have hpos : 0 ≤ x.perInstallment * (n : Int) :=
        Int.mul_nonneg hx'.perInstallment_nonneg (Int.natCast_nonneg n)
      have hmin : i128Min ≤ 0 := by decide
      exact ⟨hmin.trans hpos, hle⟩
    have hequal : (w.state.sumSchedules id count fun x => min x.unvested i128Max) = y := by
      rw [hy]
      refine sumSchedules_congr fun i hi x hx => ?_
      have hle : x.unpaid ≤ i128Max := (hproduct i hi x hx _ (Nat.sub_le _ _)).2
      have hsplit := VestingSchedule.unvested_eq (hwithin i hi x hx)
      show min (VestingSchedule.unvested x) i128Max = VestingSchedule.unpaid x
      rw [hsplit, hnone i hi x hx, add_zero]
      exact min_eq_left hle
    have hzero : (w.state.sumSchedules id count fun x => min x.leftOver i128Max) = 0 := by
      have hcongr : (w.state.sumSchedules id count fun x => min x.leftOver i128Max) =
          w.state.sumSchedules id count fun _ => 0 := by
        refine sumSchedules_congr fun i hi x hx => ?_
        show min (VestingSchedule.leftOver x) i128Max = 0
        rw [hnone i hi x hx]
        exact min_eq_left hmaxpos.le
      rw [hcongr]
      refine List.sum_eq_zero fun z hz => ?_
      obtain ⟨i, -, rfl⟩ := List.mem_map.mp hz
      cases w.state.get (.vestingSchedule id i) <;> rfl
    refine ⟨⟨fun i hi x hx => hproduct i hi x hx _ (hwithin i hi x hx), ?_, rfl⟩,
      fun i hi x hx => ?_, ?_, rfl⟩
    · rw [hequal, min_eq_left hmax]
    · obtain ⟨z, hz, rfl⟩ := Option.map_eq_some_iff.mp ((hclosed i hi).symm.trans hx)
      exact hproduct i hi z hz _ le_rfl
    · rw [hzero, min_eq_left hmaxpos.le]

/-- A schedule of 90 in three installments. -/
theorem unvested_totals_agree_example : ∃ (w : World) (e : Env) (y : Int) (t : State),
    Reachable w ∧ clawbackUnvested 1 ⟨1⟩ e w.state = .ok (y, t) ∧ y = 90 ∧
      getTotalUnvestedAmount 1 e w.state = .ok (y, w.state) ∧
        getTotalUnvestedAmount 1 e t = .ok (0, t) := by
  have hplay : (play (initialised ⟨8⟩ ⟨9⟩)
      [opensVault 1000, paysIn 500,
        (signedBy [⟨1⟩] 0, .vesting (.setVestingSchedule 1 ⟨1⟩ 0 5000 3 90 0)),
        (signedBy [] 2000, .release (.triggerRelease 1))]).any (fun w =>
      decide (w.state.get (.vestingScheduleCount 1) = some 1 ∧
        w.state.get (.vestingSchedule 1 0) = some ⟨0, 5000, 3, 0, 90, 0⟩) &&
      match clawbackUnvested 1 ⟨1⟩ (signedBy [⟨1⟩] 2000) w.state with
      | .ok (y, _) => decide (y = 90)
      | .error _ => false) = true := by
    decide +kernel
  obtain ⟨w, hw, hchecks⟩ := (Option.any_eq_true _ _).mp hplay
  simp only [Bool.and_eq_true, decide_eq_true_eq] at hchecks
  obtain ⟨⟨hcount, hx⟩, hclawback⟩ := hchecks
  split at hclawback
  swap
  · cases hclawback
  next y t hok =>
    have hreach : Reachable w := reachable_of_play hw
    refine ⟨w, _, y, t, hreach, hok, of_decide_eq_true hclawback, ?_⟩
    refine (unvested_totals_agree_iff hreach hok).mpr fun i hi x hx' => ?_
    obtain rfl : i = 0 := by
      rw [hcount] at hi
      exact Nat.lt_one_iff.mp hi
    obtain rfl := Option.some.inj (hx.symm.trans hx')
    decide

/-- A schedule of 100 in three installments: 99 are clawed back and 1 stays unvested. -/
theorem rounding_left_over : ¬ ∀ (w : World) (e : Env) (id : Nat) (caller : Address) (y : Int)
    (t : State), Reachable w → clawbackUnvested id caller e w.state = .ok (y, t) →
    getTotalUnvestedAmount id e w.state = .ok (y, w.state) ∧
      getTotalUnvestedAmount id e t = .ok (0, t) := by
  have hplay : (play (initialised ⟨8⟩ ⟨9⟩)
      [opensVault 1000, paysIn 500,
        (signedBy [⟨1⟩] 0, .vesting (.setVestingSchedule 1 ⟨1⟩ 0 5000 3 100 0)),
        (signedBy [] 2000, .release (.triggerRelease 1))]).any (fun w =>
      (clawbackUnvested 1 ⟨1⟩ (signedBy [⟨1⟩] 2000) w.state).toOption.any fun r =>
        (getTotalUnvestedAmount 1 (signedBy [⟨1⟩] 2000) w.state).toOption.any fun q =>
          decide (r.1 = 99 ∧ q.1 = 100)) = true := by
    decide +kernel
  obtain ⟨w, hw, hplay⟩ := (Option.any_eq_true _ _).mp hplay
  obtain ⟨⟨y, t⟩, hclawback, hplay⟩ := (Option.any_eq_true _ _).mp hplay
  obtain ⟨⟨z, u⟩, hget, hchecks⟩ := (Option.any_eq_true _ _).mp hplay
  obtain ⟨hy, hz⟩ := of_decide_eq_true hchecks
  intro h
  obtain ⟨hsame, -⟩ := h w _ 1 ⟨1⟩ y t (reachable_of_play hw) (Tx.ok_of_toOption hclawback)
  rw [Tx.ok_of_toOption hget] at hsame
  have hzy : z = y := congrArg Prod.fst (Except.ok.inj hsame)
  rw [hzy, hy] at hz
  cases hz

end Heirloom
