import Heirloom.Results.Installments

/-!
# What a direct claim pays

`claim_vested_installment` in the terms of the schedule: the installments that are due at a time,
what they are worth, and what a penalty for late installments takes off.
`ok_claimVestedInstallment` says exactly when such a claim succeeds and what it then does.

* `claims_pay_vested_iff`: without penalty and acceleration, claims made whenever anybody likes
  pay together what has vested at the time of the last one, unless the last installment has
  unlocked and the vault did not hold exactly what the schedule had left.
* `last_claim_pays_more`: the schedule is about 100 and pays 500.
-/

namespace Heirloom

open Transaction Runs

/-! ## What is due -/

/-- The installments unlocked at `now`. -/
def VestingSchedule.unlockedAt (x : VestingSchedule) (now : Nat) : Nat :=
  min x.numInstallments ((now - x.startTime) / x.interval + 1)

/-- What has vested at `now`. -/
def VestingSchedule.vestedAt (x : VestingSchedule) (now : Nat) : Int :=
  if x.unlockedAt now < x.numInstallments then
    x.totalAmount / x.numInstallments * x.unlockedAt now
  else x.totalAmount

/-- The schedule of vault `id` is accelerated, so that a direct claim reaches all of its
installments. -/
def State.Accelerated (s : State) (id : Nat) : Prop :=
  (s.get (.vestingAcceleration id)).any (·.accelerated) = true

instance {s : State} {id : Nat} : Decidable (s.Accelerated id) :=
  inferInstanceAs (Decidable (_ = true))

/-- The installments that a direct claim at `now` reaches. -/
def State.unlockedFor (s : State) (id now : Nat) (x : VestingSchedule) : Nat :=
  if s.Accelerated id then x.numInstallments else x.unlockedAt now

/-- The installments up to number `n` that are late at `now`. -/
def VestingSchedule.lateCount (x : VestingSchedule) (p : VestingPenaltyConfig) (now n : Nat) : Nat :=
  (x.claimRange n).countP fun i => x.unlockTime i < now - p.gracePeriodSeconds

/-- What late installments lose. -/
def VestingSchedule.reduction (x : VestingSchedule) (p : VestingPenaltyConfig) (now n : Nat) : Int :=
  (x.perInstallment * x.lateCount p now n * p.penaltyBps).tdiv 10000

/-- What a direct claim of the installments up to number `n` is about to pay. -/
def VestingSchedule.due (x : VestingSchedule) (penalty : Option VestingPenaltyConfig)
    (balance : Int) (now n : Nat) : Int :=
  match penalty with
  | none => x.worth balance n
  | some p =>
      if 0 < x.lateCount p now n then
        let penalized := x.perInstallment * ((n - x.claimedInstallments : Nat) : Int) -
          x.reduction p now n
        if x.numInstallments ≤ n then min penalized balance else penalized
      else x.worth balance n

/-- No intermediate result of the penalty leaves `i128`, in the order in which the code computes
them. -/
structure VestingSchedule.PenaltyFits (x : VestingSchedule) (p : VestingPenaltyConfig)
    (now n : Nat) : Prop where
  onTime : InI128 (x.perInstallment * ((n - x.claimedInstallments - x.lateCount p now n : Nat) : Int))
  late : InI128 (x.perInstallment * x.lateCount p now n)
  product : InI128 (x.perInstallment * x.lateCount p now n * p.penaltyBps)
  gross : InI128 (x.perInstallment * ((n - x.claimedInstallments : Nat) : Int))
  penalized : InI128 (x.perInstallment * ((n - x.claimedInstallments : Nat) : Int) -
    x.reduction p now n)

section Direct

variable {e : Env} {s t : State} {id : Nat} {v : Vault} {x : VestingSchedule}

theorem lateCount_le {p : VestingPenaltyConfig} {now n : Nat} :
    x.lateCount p now n ≤ n - x.claimedInstallments := by
  simpa [VestingSchedule.lateCount, VestingSchedule.claimRange] using
    List.countP_le_length (p := fun i => decide (x.unlockTime i < now - p.gracePeriodSeconds))
      (l := x.claimRange n)

/-- The time of a schedule can be measured: its interval is not zero, and the count of installments
fits. -/
def VestingSchedule.Measurable (x : VestingSchedule) (now : Nat) : Prop :=
  x.interval ≠ 0 ∧ (now - x.startTime) / x.interval + 1 ≤ u64Max

theorem ok_unlockedForClaim {n : Nat} :
    unlockedForClaim id x e s = .ok (n, t) ↔
      (¬ s.Accelerated id → x.Measurable e.timestamp) ∧ n = s.unlockedFor id e.timestamp x ∧
        s = t := by
  simp only [unlockedForClaim, Tx.ok_bind, ok_storageGet, Tx.ok_ite, Tx.ok_pure, ok_timestamp,
    ok_unlockedInstallments]
  by_cases h : s.Accelerated id
  · have hany : (s.get (.vestingAcceleration id)).any (·.accelerated) = true := h
    simp [State.unlockedFor, h, hany, eq_comm]
  · have hnot : (s.get (.vestingAcceleration id)).any (·.accelerated) = false := by
      simpa [State.Accelerated] using h
    simp [State.unlockedFor, h, hnot, VestingSchedule.Measurable, VestingSchedule.unlockedAt, eq_comm]

/-- With the start behind it, a claim passes the cliff exactly from its time on. -/
theorem ok_assertCliffReached (hstart : x.startTime ≤ e.timestamp) {u : Unit} :
    assertCliffReached x e s = .ok (u, t) ↔ x.startTime + x.cliffPeriod ≤ e.timestamp ∧ s = t := by
  have htime := e.timestamp_le
  simp only [assertCliffReached, Tx.ok_onlyIf, Tx.ok_bind, ok_u64, ok_require, ok_timestamp]
  constructor
  · rintro (⟨_, _, _, ⟨_, rfl, rfl⟩, _, _, ⟨rfl, rfl⟩, hle, rfl⟩ | ⟨hzero, rfl⟩)
    · exact ⟨hle, rfl⟩
    · exact ⟨by omega, rfl⟩
  · rintro ⟨hle, rfl⟩
    rcases Nat.eq_zero_or_pos x.cliffPeriod with hzero | hpos
    · exact .inr ⟨by omega, rfl⟩
    · exact .inl ⟨hpos, _, _, ⟨hle.trans htime, rfl, rfl⟩, _, _, ⟨rfl, rfl⟩, hle, rfl⟩

theorem ok_installmentAmount {n : Nat} {amount : Int} :
    installmentAmount v x n (n - x.claimedInstallments) e s = .ok (amount, t) ↔
      (x.numInstallments ≠ 0 ∧ (n < x.numInstallments →
        InI128 (x.perInstallment * ((n - x.claimedInstallments : Nat) : Int)))) ∧
          amount = x.worth v.balance n ∧ s = t := by
  simp only [installmentAmount, Tx.ok_bind, ok_divI, Tx.ok_ite, Tx.ok_pure, ok_i128, Nat.cast_ne_zero]
  constructor
  · rintro ⟨_, _, ⟨hne, rfl, rfl⟩, ⟨hlast, rfl, rfl⟩ | ⟨hlast, hfits, rfl, rfl⟩⟩
    · exact ⟨⟨hne, fun h => absurd hlast (by omega)⟩, (if_pos hlast).symm, rfl⟩
    · exact ⟨⟨hne, fun _ => hfits⟩, (if_neg hlast).symm, rfl⟩
  · rintro ⟨⟨hne, hfits⟩, rfl, rfl⟩
    refine ⟨_, _, ⟨hne, rfl, rfl⟩, ?_⟩
    by_cases hlast : x.numInstallments ≤ n
    · exact .inl ⟨hlast, (if_pos hlast).symm, rfl⟩
    · exact .inr ⟨hlast, hfits (by omega), (if_neg hlast).symm, rfl⟩

/-- Late and timely installments together. -/
theorem onTime_add_late {p : VestingPenaltyConfig} {now n : Nat} :
    x.perInstallment * ((n - x.claimedInstallments - x.lateCount p now n : Nat) : Int) +
      x.perInstallment * x.lateCount p now n =
        x.perInstallment * ((n - x.claimedInstallments : Nat) : Int) := by
  have hlate : x.lateCount p now n ≤ n - x.claimedInstallments := lateCount_le
  rw [← Int.mul_add]
  congr 1
  omega

theorem ok_penalizedAmount {p : VestingPenaltyConfig} {n : Nat} {amount : Int}
    (hne : x.numInstallments ≠ 0) :
    penalizedAmount v x p n (n - x.claimedInstallments) (x.worth v.balance n) e s =
        .ok (amount, t) ↔
      (0 < x.lateCount p e.timestamp n → x.PenaltyFits p e.timestamp n) ∧
        amount = x.due (some p) v.balance e.timestamp n ∧ s = t := by
  have hsum : x.perInstallment *
        ((n - x.claimedInstallments - x.lateCount p e.timestamp n : Nat) : Int) +
      x.perInstallment * x.lateCount p e.timestamp n =
        x.perInstallment * ((n - x.claimedInstallments : Nat) : Int) := onTime_add_late
  simp only [penalizedAmount, Tx.ok_bind, ok_timestamp, ok_divI, Tx.ok_ite, Tx.ok_pure,
    ok_i128, Nat.cast_ne_zero]
  simp only [VestingSchedule.due]
  constructor
  · rintro ⟨_, _, ⟨rfl, rfl⟩, ⟨hlate, _, _, ⟨_, rfl, rfl⟩, _, _, ⟨h₁, rfl, rfl⟩, _, _, ⟨h₂, rfl, rfl⟩,
      _, _, ⟨h₃, rfl, rfl⟩, _, _, ⟨h₄, rfl, rfl⟩, _, _, ⟨h₅, rfl, rfl⟩, rfl, rfl⟩ | ⟨hlate, rfl, rfl⟩⟩
    · have hlate' : 0 < x.lateCount p e.timestamp n := hlate
      refine ⟨fun _ => ⟨h₁, h₂, h₃, hsum ▸ h₄, hsum ▸ h₅⟩, ?_, rfl⟩
      rw [if_pos hlate', ← hsum]
      rfl
    · have hlate' : ¬ 0 < x.lateCount p e.timestamp n := hlate
      exact ⟨fun h => absurd h hlate', (if_neg hlate').symm, rfl⟩
  · rintro ⟨hfits, rfl, rfl⟩
    refine ⟨_, _, ⟨rfl, rfl⟩, ?_⟩
    by_cases hlate : 0 < x.lateCount p e.timestamp n
    · obtain ⟨h₁, h₂, h₃, h₄, h₅⟩ := hfits hlate
      refine .inl ⟨hlate, _, _, ⟨hne, rfl, rfl⟩, _, _, ⟨h₁, rfl, rfl⟩, _, _, ⟨h₂, rfl, rfl⟩, _, _,
        ⟨h₃, rfl, rfl⟩, _, _, ⟨hsum ▸ h₄, rfl, rfl⟩, _, _, ⟨hsum ▸ h₅, rfl, rfl⟩, ?_, rfl⟩
      rw [if_pos hlate, ← hsum]
      rfl
    · exact .inr ⟨hlate, (if_neg hlate).symm, rfl⟩

theorem ok_addRollover {amount total : Int}
    (h : ∀ config, s.get (.vestingRollover id) = some config → config.rolledAmount = 0) :
    addRollover id amount e s = .ok (total, t) ↔ total = amount ∧ s = t := by
  simp only [addRollover, Tx.ok_bind, ok_storageGet, Tx.ok_ifSomeElse, Tx.ok_ite, Tx.ok_pure, ok_i128,
    ok_storageSet]
  constructor
  · rintro ⟨_, _, ⟨rfl, rfl⟩, ⟨config, hconfig, ⟨hrolled, _⟩ | ⟨_, rfl, rfl⟩⟩ | ⟨_, rfl, rfl⟩⟩
    · have := h config hconfig
      omega
    · exact ⟨rfl, rfl⟩
    · exact ⟨rfl, rfl⟩
  · rintro ⟨rfl, rfl⟩
    refine ⟨_, _, ⟨rfl, rfl⟩, ?_⟩
    cases hconfig : s.get (.vestingRollover id) with
    | none => exact .inr ⟨rfl, rfl, rfl⟩
    | some config =>
        have := h config hconfig
        exact .inl ⟨config, rfl, .inr ⟨by omega, rfl, rfl⟩⟩

/-- The heirs of the vault can be paid `amount`: the shares are in range, and the token takes the
transfers. -/
def PaysHeirs (e : Env) (s : State) (v : Vault) (amount : Int) : Prop :=
  ∃ t, payHeirs v amount e s = .ok ((), t)

theorem ok_payClaim {amount : Int} {n : Nat} {u : Unit} :
    payClaim id v x amount n e s = .ok (u, t) ↔
      (PaysHeirs e s v amount ∧ InI128 (v.balance - amount)) ∧ t = s.afterClaim id v x amount n := by
  simp only [payClaim, Tx.ok_bind, ok_i128, ok_saveVault, ok_storageSet]
  constructor
  · rintro ⟨_, t₁, hpay, _, _, ⟨hfits, rfl, rfl⟩, _, _, rfl, rfl⟩
    refine ⟨⟨⟨t₁, hpay⟩, hfits⟩, ?_⟩
    have hlog : t₁ = s.transferAll (v.heirsLog amount) :=
      wp_payHeirs (Q := fun _ t => t = s.transferAll (v.heirsLog amount)) (fun _ => rfl) _ _ hpay
    rw [State.afterClaim, hlog]
  · rintro ⟨⟨⟨t₁, hpay⟩, hfits⟩, rfl⟩
    have hlog : t₁ = s.transferAll (v.heirsLog amount) :=
      wp_payHeirs (Q := fun _ t => t = s.transferAll (v.heirsLog amount)) (fun _ => rfl) _ _ hpay
    exact ⟨(), t₁, hpay, _, _, ⟨hfits, rfl, rfl⟩, (), _, rfl, by rw [State.afterClaim, hlog]⟩

theorem ok_loadClaimSchedule :
    loadClaimSchedule id e s = .ok (x, t) ↔ (s.get (.vestingSchedule id 0) = some x ∧
      x.claimedInstallments < x.numInstallments ∧ x.startTime ≤ e.timestamp) ∧ s = t := by
  simp only [loadClaimSchedule, Tx.ok_bind, ok_storageGet, Tx.ok_fromSome, ok_require, ok_timestamp,
    Tx.ok_pure]
  constructor
  · rintro ⟨_, _, ⟨rfl, rfl⟩, _, _, ⟨hx, rfl⟩, _, _, ⟨hleft, rfl⟩, _, _, ⟨rfl, rfl⟩, _, _,
      ⟨hstart, rfl⟩, rfl, rfl⟩
    exact ⟨⟨hx, hleft, hstart⟩, rfl⟩
  · rintro ⟨⟨hx, hleft, hstart⟩, rfl⟩
    exact ⟨_, _, ⟨rfl, rfl⟩, _, _, ⟨hx, rfl⟩, (), _, ⟨hleft, rfl⟩, _, _, ⟨rfl, rfl⟩, (), _,
      ⟨hstart, rfl⟩, rfl, rfl⟩

/-- The amount after a penalty, if there is one. -/
theorem ok_due {penalty : Option VestingPenaltyConfig} {n : Nat} {amount : Int}
    (hne : x.numInstallments ≠ 0) :
    Tx.ifSomeElse penalty (fun p : VestingPenaltyConfig => penalizedAmount v x p n
        (n - x.claimedInstallments) (x.worth v.balance n)) (pure (x.worth v.balance n)) e s =
        .ok (amount, t) ↔
      (∀ p, penalty = some p → 0 < x.lateCount p e.timestamp n → x.PenaltyFits p e.timestamp n) ∧
        amount = x.due penalty v.balance e.timestamp n ∧ s = t := by
  cases penalty with
  | none =>
      simp only [Tx.ifSomeElse, Tx.ok_pure, VestingSchedule.due]
      exact ⟨fun h => ⟨fun p hp => by simp at hp, h.1.symm, h.2⟩, fun h => ⟨h.2.1.symm, h.2.2⟩⟩
  | some p => simp [Tx.ifSomeElse, ok_penalizedAmount hne]

/-- The direct claim finds a started schedule with installments to claim up to number `n`. -/
structure ClaimOpen (e : Env) (s : State) (id : Nat) (v : Vault) (x : VestingSchedule) (n : Nat) :
    Prop where
  running : (s.get .paused).getD false = false
  vault : s.vault id = some v
  released : v.status = .released
  schedule : s.get (.vestingSchedule id 0) = some x
  left : x.claimedInstallments < x.numInstallments
  started : x.startTime ≤ e.timestamp
  cliff : x.startTime + x.cliffPeriod ≤ e.timestamp
  measurable : ¬ s.Accelerated id → x.Measurable e.timestamp
  reached : n = s.unlockedFor id e.timestamp x
  more : x.claimedInstallments < n

/-- The amount of the claim can be computed, is covered by the balance, and can be paid to the
heirs. -/
structure ClaimPays (e : Env) (s : State) (id : Nat) (v : Vault) (x : VestingSchedule) (n : Nat)
    (amount : Int) : Prop where
  due : amount = x.due (s.get (.vestingPenalty id 0)) v.balance e.timestamp n
  worth : n < x.numInstallments →
    InI128 (x.perInstallment * ((n - x.claimedInstallments : Nat) : Int))
  penalty : ∀ p, s.get (.vestingPenalty id 0) = some p → 0 < x.lateCount p e.timestamp n →
    x.PenaltyFits p e.timestamp n
  covered : amount ≤ v.balance
  paid : PaysHeirs e s v amount
  rest : InI128 (v.balance - amount)
  reduced : amount < x.worth v.balance n → InI128 (x.worth v.balance n - amount)

/-- All about a direct claim. -/
theorem ok_claimVestedInstallment (hs : s.PlainVesting) {amount : Int} :
    claimVestedInstallment id e s = .ok (amount, t) ↔ ∃ v x n, ClaimOpen e s id v x n ∧
      ClaimPays e s id v x n amount ∧ t = s.afterClaim id v x amount n := by
  simp only [claimVestedInstallment, Tx.ok_bind, ok_assertNotPaused, ok_loadVault, ok_require,
    ok_loadClaimSchedule, ok_storageGet, Tx.ok_pure, ok_payClaim, ok_unlockedForClaim]
  constructor
  · rintro ⟨_, _, ⟨rfl, hrun⟩, v, _, ⟨hv, rfl⟩, _, _, ⟨hreleased, rfl⟩, x, _,
      ⟨⟨hx, hleft, hstart⟩, rfl⟩, _, _, hassert, h⟩
    obtain ⟨n, _, ⟨hmeasure, rfl, rfl⟩, _, _, ⟨rfl, rfl⟩, _, _, ⟨hdue, rfl⟩, h⟩ := h
    obtain ⟨own, _, hown, base, _, hbase, _, _, ⟨rfl, rfl⟩, _, _, hresult, h⟩ := h
    obtain ⟨_, _, ⟨hcovered, rfl⟩, _, _, ⟨hpays, rfl⟩, _, _, hevent, rfl, rfl⟩ := h
    obtain ⟨hcliff, rfl⟩ := (ok_assertCliffReached hstart).mp hassert
    obtain ⟨⟨hne, hworth⟩, rfl, rfl⟩ := ok_installmentAmount.mp hown
    obtain ⟨rfl, rfl⟩ := (ok_addRollover (hs.rollover id)).mp hbase
    obtain ⟨hfits, hamount, rfl⟩ := (ok_due hne).mp hresult
    have hmore : x.claimedInstallments < s.unlockedFor id e.timestamp x := by
      rcases hdue with hdue | hrolled
      · omega
      · obtain ⟨config, hconfig, hany⟩ := (Option.any_eq_true _ _).mp hrolled
        simp [hs.rollover id config hconfig] at hany
    refine ⟨v, x, _, ⟨hrun, hv, hreleased, hx, hleft, hstart, hcliff, hmeasure, rfl, hmore⟩,
      ⟨hamount, hworth, hfits, hcovered, hpays.1, hpays.2, ?_⟩, ?_⟩
    all_goals
      simp only [Tx.ok_onlyIf, Tx.ok_bind, ok_i128, Tx.ok_pure] at hevent
      rcases hevent with ⟨_, _, _, ⟨hfits, rfl, rfl⟩, _, rfl⟩ | ⟨hnot, rfl⟩
    · exact fun _ => hfits
    · exact fun h => absurd h hnot
    · rfl
    · rfl
  · rintro ⟨v, x, n, hopen, hpays, rfl⟩
    obtain ⟨hrun, hv, hreleased, hx, hleft, hstart, hcliff, hmeasure, rfl, hmore⟩ := hopen
    obtain ⟨hamount, hworth, hpenalty, hcovered, hpaid, hrest, hreduced⟩ := hpays
    have hne : x.numInstallments ≠ 0 := by omega
    refine ⟨(), s, ⟨rfl, hrun⟩, v, s, ⟨hv, rfl⟩, (), s, ⟨hreleased, rfl⟩, x, s,
      ⟨⟨hx, hleft, hstart⟩, rfl⟩, (), s, (ok_assertCliffReached hstart).mpr ⟨hcliff, rfl⟩, _, s,
      ⟨hmeasure, rfl, rfl⟩, _, s, ⟨rfl, rfl⟩, (), s, ⟨.inl (by omega), rfl⟩, _, s,
      ok_installmentAmount.mpr ⟨⟨hne, hworth⟩, rfl, rfl⟩, _, s,
      (ok_addRollover (hs.rollover id)).mpr ⟨rfl, rfl⟩, _, s, ⟨rfl, rfl⟩, amount, s,
      (ok_due hne).mpr ⟨hpenalty, hamount, rfl⟩, (), s, ⟨hcovered, rfl⟩, (), _,
      ⟨⟨hpaid, hrest⟩, rfl⟩, (), _, ?_, rfl, rfl⟩
    simp only [Tx.ok_onlyIf, Tx.ok_bind, ok_i128, Tx.ok_pure]
    by_cases hless : amount < x.worth v.balance (s.unlockedFor id e.timestamp x)
    · exact .inl ⟨hless, _, _, ⟨hreduced hless, rfl, rfl⟩, trivial, rfl⟩
    · exact .inr ⟨hless, trivial⟩

/-! ## Runs of direct claims -/

/-- A claim is a direct one, of a schedule without penalty that is not accelerated. -/
def Unadjusted (id : Nat) (w : World) : Option Payment → Prop
  | some p => p.call = .claimVestedInstallment id ∧
      w.state.get (.vestingPenalty id 0) = none ∧ ¬ w.state.Accelerated id
  | none => True

/-- What such a claim does. -/
structure ClaimsDue (e : Env) (id : Nat) (v : Vault) (x : VestingSchedule) (s t : State) : Prop where
  vault : s.vault id = some v
  schedule : s.get (.vestingSchedule id 0) = some x
  cliff : x.startTime + x.cliffPeriod ≤ e.timestamp
  more : x.claimedInstallments < x.unlockedAt e.timestamp
  after : t.vault id = some (v.withBalance (v.balance - x.worth v.balance (x.unlockedAt e.timestamp)))
  advanced : t.get (.vestingSchedule id 0) =
    some { x with claimedInstallments := x.unlockedAt e.timestamp }

theorem claimVestedInstallment_due (hs : s.PlainVesting)
    (hpenalty : s.get (.vestingPenalty id 0) = none) (hnot : ¬ s.Accelerated id) :
    wp (claimVestedInstallment id) (fun _ t => ∃ v x, ClaimsDue e id v x s t) e s := by
  intro amount t hok
  obtain ⟨v, x, n, hopen, hpays, rfl⟩ := (ok_claimVestedInstallment hs).mp hok
  obtain rfl : n = x.unlockedAt e.timestamp := by
    rw [hopen.reached, State.unlockedFor, if_neg hnot]
  obtain rfl : amount = x.worth v.balance (x.unlockedAt e.timestamp) := by
    rw [hpays.due, hpenalty]
    rfl
  refine ⟨v, x, hopen.vault, hopen.schedule, hopen.cliff, hopen.more, ?_, ?_⟩
  all_goals simp [State.afterClaim]

theorem exec_due (hs : s.PlainVesting) (hpenalty : s.get (.vestingPenalty id 0) = none)
    (hnot : ¬ s.Accelerated id) : wp (exec (.vesting (.claimVestedInstallment id)))
      (fun _ t => ∃ v x, ClaimsDue e id v x s t) e s := by
  simp only [exec, execVesting, Tx.wp_bind, Tx.wp_pure]
  exact claimVestedInstallment_due hs hpenalty hnot

/-- The claims of a run so far, for a schedule of which the installments up to `n` are claimed. -/
structure VestedLedger (id : Nat) (v : Vault) (x : VestingSchedule) (payments : List Payment)
    (n : Nat) (w : World) : Prop where
  reachable : Reachable w
  vault : ∃ v', w.state.vault id = some v' ∧
    v'.balance = v.balance - (payments.map (·.amount)).sum
  schedule : w.state.get (.vestingSchedule id 0) = some { x with claimedInstallments := n }
  started : x.claimedInstallments ≤ n
  paid : n < x.numInstallments → (payments.map (·.amount)).sum =
    x.perInstallment * ((n - x.claimedInstallments : Nat) : Int)
  emptied : payments ≠ [] → x.numInstallments ≤ n → (payments.map (·.amount)).sum = v.balance
  cliff : ∀ p ∈ payments, x.startTime + x.cliffPeriod ≤ p.env.timestamp
  latest : ∀ p ∈ payments.head?, n = x.unlockedAt p.env.timestamp

theorem VestedLedger.claim {w w' : World} {payments : List Payment} {n : Nat}
    (h : VestedLedger id v x payments n w) {p : Payment} {v₁ : Vault} {y : VestingSchedule}
    (hdue : ClaimsDue p.env id v₁ y w.state w'.state) (hw' : Reachable w')
    (hp : p.amount = y.worth v₁.balance (y.unlockedAt p.env.timestamp)) :
    VestedLedger id v x (p :: payments) (x.unlockedAt p.env.timestamp) w' := by
  obtain rfl := Option.some.inj (h.schedule.symm.trans hdue.schedule)
  obtain ⟨v₂, hv₂, hbalance⟩ := h.vault
  obtain rfl := Option.some.inj (hv₂.symm.trans hdue.vault)
  have hmore : n < x.unlockedAt p.env.timestamp := hdue.more
  have hstarted := h.started
  have hafter := hdue.after
  rw [← hp] at hafter
  refine ⟨hw', ⟨_, hafter, ?_⟩, hdue.advanced, by omega, fun hless => ?_, fun _ hlast => ?_,
    List.forall_mem_cons.mpr ⟨hdue.cliff, h.cliff⟩, ?_⟩
  · show v₂.balance - p.amount = _
    rw [List.map_cons, List.sum_cons, hbalance]
    omega
  · -- some installments are left
    have hworth : p.amount = x.perInstallment * ((x.unlockedAt p.env.timestamp - n : Nat) : Int) :=
      hp.trans (if_neg (not_le.mpr hless))
    rw [List.map_cons, List.sum_cons, h.paid (hmore.trans hless), hworth, ← Int.mul_add]
    congr 1
    omega
  · -- the last claim takes what the vault has left
    have hworth : p.amount = v₂.balance := hp.trans (if_pos hlast)
    rw [List.map_cons, List.sum_cons, hworth, hbalance]
    omega
  · rintro q hq
    obtain rfl : p = q := by simpa using hq
    rfl

theorem vestedLedger_of_run {w w' : World} {ks : List (Option Payment)} (hw : Reachable w)
    (hv : w.state.vault id = some v) (hx : w.state.get (.vestingSchedule id 0) = some x)
    (hrun : Run (Guarded (ClaimStep id) (Unadjusted id)) w ks w') :
    ∃ n, VestedLedger id v x ks.reduceOption n w' := by
  refine hrun.invariantHistory (I := fun ks w' => ∃ n, VestedLedger id v x ks.reduceOption n w') ?_ ?_
  · refine ⟨x.claimedInstallments, hw, ⟨v, hv, ?_⟩, hx, le_rfl, ?_, ?_, ?_, ?_⟩
    all_goals simp
  · rintro ks w₁ k w₂ ⟨n, h⟩ ⟨hstep, hplain⟩
    cases hstep with
    | claim hc hstep hv₁ hy hv₂ hy' =>
        obtain ⟨rfl, hpenalty, hnot⟩ := hplain
        have hreach := h.reachable.step hstep
        cases hstep with
        | call _ hexec =>
            obtain ⟨v₃, y₃, hdue⟩ :=
              exec_due (plainVesting_of_reachable h.reachable) hpenalty hnot _ _ hexec
            obtain rfl := Option.some.inj (hv₁.symm.trans hdue.vault)
            obtain rfl := Option.some.inj (hy.symm.trans hdue.schedule)
            obtain rfl := Option.some.inj (hv₂.symm.trans hdue.after)
            obtain rfl := Option.some.inj (hy'.symm.trans hdue.advanced)
            exact ⟨_, h.claim hdue hreach (by simp [VestingCall.withoutBonus])⟩
    | other hstep hvault hschedule =>
        exact ⟨n, h.reachable.step hstep, hvault ▸ h.vault, hschedule ▸ h.schedule, h.started,
          h.paid, h.emptied, h.cliff, h.latest⟩

end Direct

/-- Claims of a schedule without penalty and acceleration, however many and whenever they are
made, with other calls between them that leave the vault and its schedule alone: together with
the installments claimed before them they pay what has vested at the time of the last claim if and
only if the last installment has not unlocked by then, or the vault held at first exactly what
the schedule had left. No claim comes before the cliff. -/
theorem claims_pay_vested_iff {w w' : World} {ks : List (Option Payment)} {id : Nat} {v : Vault}
    {x : VestingSchedule} {p : Payment} {payments : List Payment} (hw : Reachable w)
    (hv : w.state.vault id = some v) (hx : w.state.get (.vestingSchedule id 0) = some x)
    (hrun : Run (Guarded (ClaimStep id) (Unadjusted id)) w ks w')
    (hlatest : ks.reduceOption = p :: payments) :
    (x.perInstallment * x.claimedInstallments + ((p :: payments).map (·.amount)).sum =
        x.vestedAt p.env.timestamp ↔
      (x.unlockedAt p.env.timestamp = x.numInstallments → v.balance = x.unvested)) ∧
      ∀ q ∈ p :: payments, x.startTime + x.cliffPeriod ≤ q.env.timestamp := by
  obtain ⟨n, h⟩ := vestedLedger_of_run hw hv hx hrun
  rw [hlatest] at h
  have hn : n = x.unlockedAt p.env.timestamp := h.latest p rfl
  have hnonneg : 0 ≤ x.totalAmount := (plainVesting_of_reachable hw).total id 0 x hx
  have hstarted := h.started
  have hle : x.unlockedAt p.env.timestamp ≤ x.numInstallments := min_le_left _ _
  refine ⟨?_, h.cliff⟩
  rw [VestingSchedule.vestedAt]
  split
  · next hless =>
      have hpaid := h.paid (by omega)
      have hfloor : x.totalAmount / (x.numInstallments : Int) = x.perInstallment :=
        (Int.tdiv_eq_ediv_of_nonneg hnonneg).symm
      refine iff_of_true ?_ fun hall => by omega
      rw [hpaid, hfloor, ← Int.mul_add, ← hn]
      congr 1
      omega
  · next hlast =>
      have hall : x.unlockedAt p.env.timestamp = x.numInstallments := by omega
      rw [h.emptied (by simp) (by omega), VestingSchedule.unvested]
      simp only [hall, forall_const]
      unfold VestingSchedule.perInstallment
      omega

/-- Two installments of 250, each claimed once it has unlocked, from a vault with 500. -/
theorem claims_pay_vested_in_turn : ∃ w w' : World, ∃ p q : Payment, ∃ v : Vault,
    ∃ x : VestingSchedule, Reachable w ∧ w.state.vault 1 = some v ∧
      w.state.get (.vestingSchedule 1 0) = some x ∧ x.claimedInstallments = 0 ∧
        Run (Guarded (ClaimStep 1) (Unadjusted 1)) w [some q, some p] w' ∧
          p.env.timestamp < q.env.timestamp ∧ q.amount + p.amount = x.totalAmount := by
  have hplay : (play (initialised ⟨8⟩ ⟨9⟩)
      [opensVault 1000, paysIn 500,
        (signedBy [⟨1⟩] 0, .vesting (.setVestingSchedule 1 ⟨1⟩ 0 5000 2 500 0)),
        (signedBy [] 2000, .release (.triggerRelease 1))]).any (fun w =>
      (play w [(signedBy [] 2000, .vesting (.claimVestedInstallment 1))]).any fun u =>
        (play u [(signedBy [] 5000, .vesting (.claimVestedInstallment 1))]).any fun w' =>
          (w.state.vault 1).any fun v => (w.state.get (.vestingSchedule 1 0)).any fun x =>
            decide (v.balance = 500 ∧ x = ⟨0, 5000, 2, 0, 500, 0⟩) &&
            decide (w.state.get (.vestingPenalty 1 0) = none ∧ ¬ w.state.Accelerated 1) &&
            decide (u.state.get (.vestingPenalty 1 0) = none ∧ ¬ u.state.Accelerated 1)) = true := by
    decide +kernel
  obtain ⟨w, hw, hplay⟩ := (Option.any_eq_true _ _).mp hplay
  obtain ⟨u, hu, hplay⟩ := (Option.any_eq_true _ _).mp hplay
  obtain ⟨w', hw', hchecks⟩ := (Option.any_eq_true _ _).mp hplay
  simp only [Bool.and_eq_true, Option.any_eq_true, decide_eq_true_eq] at hchecks
  obtain ⟨v, hv, x, hx, ⟨⟨hbalance, rfl⟩, hplain₁⟩, hplain₂⟩ := hchecks
  have hreach : Reachable w := reachable_of_play hw
  have hclaim : VestingCall.ClaimsFrom 1 (.claimVestedInstallment 1) := rfl
  obtain ⟨p, hpe, hpc, hfirst⟩ := claimStep_of_step hreach hclaim (step_of_play hu)
  obtain ⟨q, hqe, hqc, hlast⟩ :=
    claimStep_of_step (hreach.step (step_of_play hu)) hclaim (step_of_play hw')
  have hrun : Run (Guarded (ClaimStep 1) (Unadjusted 1)) w [some q, some p] w' :=
    .next (.next .start ⟨hfirst, hpc, hplain₁⟩) ⟨hlast, hqc, hplain₂⟩
  have hpaid := (claims_pay_vested_iff hreach hv hx hrun rfl).1.mpr fun _ => by
    rw [hbalance]
    rfl
  refine ⟨w, w', p, q, v, _, hreach, hv, hx, rfl, hrun, by rw [hpe, hqe]; decide, ?_⟩
  rw [hqe] at hpaid
  have hvested : VestingSchedule.vestedAt ⟨0, 5000, 2, 0, 500, 0⟩ (signedBy [] 5000).timestamp = 500 := by
    decide
  simpa [hvested] using hpaid

/-- The vault has 500 and a schedule about 100 of it, in one installment. -/
theorem last_claim_pays_more : ¬ ∀ (w w' : World) (ks : List (Option Payment)) (id : Nat) (v : Vault)
    (x : VestingSchedule) (p : Payment) (payments : List Payment), Reachable w →
    w.state.vault id = some v → w.state.get (.vestingSchedule id 0) = some x →
    x.claimedInstallments = 0 → Run (Guarded (ClaimStep id) (Unadjusted id)) w ks w' →
    ks.reduceOption = p :: payments →
    ((p :: payments).map (·.amount)).sum = x.vestedAt p.env.timestamp := by
  have hplay : (play (initialised ⟨8⟩ ⟨9⟩)
      [opensVault 1000, paysIn 500,
        (signedBy [⟨1⟩] 0, .vesting (.setVestingSchedule 1 ⟨1⟩ 0 10 1 100 0)),
        (signedBy [] 2000, .release (.triggerRelease 1))]).any (fun w =>
      (play w [(signedBy [] 2000, .vesting (.claimVestedInstallment 1))]).any fun w' =>
        (w.state.vault 1).any fun v => (w.state.get (.vestingSchedule 1 0)).any fun x =>
          (w'.state.vault 1).any fun v' => (w'.state.get (.vestingSchedule 1 0)).any fun _ =>
            decide (v.balance = 500 ∧ v'.balance = 0 ∧ x = ⟨0, 10, 1, 0, 100, 0⟩) &&
            decide (w.state.get (.vestingPenalty 1 0) = none ∧ ¬ w.state.Accelerated 1)) = true := by
    decide +kernel
  obtain ⟨w, hw, hplay⟩ := (Option.any_eq_true _ _).mp hplay
  obtain ⟨w', hw', hchecks⟩ := (Option.any_eq_true _ _).mp hplay
  simp only [Bool.and_eq_true, Option.any_eq_true, decide_eq_true_eq] at hchecks
  obtain ⟨v, hv, x, hx, v', hv', x', hx', ⟨hbalance, hafter, rfl⟩, hplain⟩ := hchecks
  have hclaim : VestingCall.ClaimsFrom 1 (.claimVestedInstallment 1) := rfl
  have hstep : ClaimStep 1 w _ w' := .claim hclaim (step_of_play hw') hv hx hv' hx'
  intro h
  have hpaid := h w w' _ 1 v _ _ _ (reachable_of_play hw) hv hx rfl
    (.next .start ⟨hstep, rfl, hplain⟩) rfl
  have hvested : VestingSchedule.vestedAt ⟨0, 10, 1, 0, 100, 0⟩ (signedBy [] 2000).timestamp = 100 := by
    decide
  simp [VestingCall.withoutBonus, hbalance, hafter, hvested] at hpaid

end Heirloom
