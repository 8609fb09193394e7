import Mathlib.Data.List.ReduceOption
import Heirloom.System

/-!
# Claims of installments

Three entry points claim the installments of the first vesting schedule of a released
vault. They share the count of claimed installments, and each pays the last one with
whatever the vault has.

* `installments_paid_once`: however the three are interleaved, no installment is paid
  twice, the balance does not go below zero and the payments, bonuses apart, stay within
  the total of the schedule, as long as a claim that takes the rest of the vault finds no
  more in it than the schedule has left.
* `last_installment_takes_all`: a vault with more in it than the schedule is about pays
  it all to the heirs.
-/

namespace Heirloom

open Transaction Runs

/-- The call claims installments of vault `id`, by any of the three claims on the time-based
schedule. -/
def VestingCall.ClaimsFrom (id : Nat) : VestingCall → Prop
  | .claimVestedInstallment i | .claimCatchupVesting i | .claimWithBonus i => i = id
  | _ => False

def VestingSchedule.perInstallment (x : VestingSchedule) : Int :=
  x.totalAmount.tdiv x.numInstallments

/-- What the installments up to number `n` are worth in a vault with the given balance. -/
def VestingSchedule.worth (x : VestingSchedule) (balance : Int) (n : Nat) : Int :=
  if x.numInstallments ≤ n then balance
  else x.perInstallment * ((n - x.claimedInstallments : Nat) : Int)

/-- What a claim up to installment `n` has paid apart from the bonus, which is paid on top of
the worth of the installments. -/
def VestingCall.withoutBonus (x : VestingSchedule) (before after : Int) (n : Nat) :
    VestingCall → Int
  | .claimWithBonus _ => min (before - after) (x.worth before n)
  | _ => before - after

/-- A claim: the installments it covers and what it pays for them. -/
structure Payment where
  env : Env
  call : VestingCall
  installments : List Nat
  amount : Int

/-- A claim of vault `id`, or anything that leaves the vault and its schedule alone. -/
inductive ClaimStep (id : Nat) : World → Option Payment → World → Prop
  | claim {w w' : World} {e : Env} {c : VestingCall} {v v' : Vault} {x x' : VestingSchedule} :
      c.ClaimsFrom id → Step w (.call e (.vesting c)) w' →
      w.state.vault id = some v → w.state.get (.vestingSchedule id 0) = some x →
      w'.state.vault id = some v' → w'.state.get (.vestingSchedule id 0) = some x' →
      ClaimStep id w (some
        { env := e, call := c
          installments := List.range' (x.claimedInstallments + 1)
            (x'.claimedInstallments - x.claimedInstallments)
          amount := c.withoutBonus x v.balance v'.balance x'.claimedInstallments }) w'
  | other {w w' : World} {k : Event} :
      Step w k w' → w'.state.vault id = w.state.vault id →
      w'.state.get (.vestingSchedule id 0) = w.state.get (.vestingSchedule id 0) →
      ClaimStep id w none w'

/-- The last installment of the schedule is due at `now`, and with it all the others. -/
def VestingSchedule.AllUnlocked (x : VestingSchedule) (now : Nat) : Prop :=
  x.startTime + (x.numInstallments - 1) * x.interval ≤ now

/-- The call claims the last installment for all that the vault has: every installment is due or
accelerated, none is late under a penalty, and the limit of a catch-up does not stop short. -/
def State.TakesRest (s : State) (id now : Nat) (x : VestingSchedule) : VestingCall → Prop
  | .claimVestedInstallment _ =>
      ((s.get (.vestingAcceleration id)).any (·.accelerated) = true ∨ x.AllUnlocked now) ∧
        ∀ p, s.get (.vestingPenalty id 0) = some p →
          now - p.gracePeriodSeconds ≤ x.unlockTime (x.claimedInstallments + 1)
  | .claimCatchupVesting _ =>
      x.AllUnlocked now ∧ ∀ config, s.get (.vestingCatchUp id) = some config →
        0 < config.maxCatchupInstallments →
          x.numInstallments - x.claimedInstallments ≤ config.maxCatchupInstallments
  | .claimWithBonus _ => x.AllUnlocked now
  | _ => False

/-- A claim that takes the rest of the vault finds no more there than the schedule has left. -/
def Budgeted (id : Nat) (w : World) : Option Payment → Prop
  | some p => ∀ v x, w.state.vault id = some v → w.state.get (.vestingSchedule id 0) = some x →
      w.state.TakesRest id p.env.timestamp x p.call → v.balance ≤ x.unvested
  | none => True

/-- What the claims of a run have done to a vault and its schedule. -/
structure PaidOnce (v : Vault) (x : VestingSchedule) (payments : List Payment) (v' : Vault) :
    Prop where
  once : (payments.flatMap (·.installments)).Nodup
  balance : v'.balance = v.balance ∨ 0 ≤ v'.balance
  total : (payments.map (·.amount)).sum ≤ x.totalAmount

section Amounts

variable {e : Env} {s t : State} {id : Nat} {v : Vault} {x : VestingSchedule}

/-! ## The amounts -/

theorem unlocked_of_ok {now start interval num n : Nat}
    (h : unlockedInstallments now start interval num e s = .ok (n, t)) :
    0 < interval ∧ n = min ((now - start) / interval + 1) num := by
  simp only [unlockedInstallments, Tx.ok_bind, ok_divU, ok_u64, Tx.ok_pure] at h
  obtain ⟨_, _, ⟨hne, rfl, rfl⟩, _, _, ⟨_, rfl, rfl⟩, rfl, -⟩ := h
  exact ⟨Nat.pos_of_ne_zero hne, rfl⟩

/-- All installments are unlocked only once the last one is due. -/
theorem allUnlocked_of_ok {now n : Nat}
    (h : unlockedInstallments now x.startTime x.interval x.numInstallments e s = .ok (n, t))
    (hstart : x.startTime ≤ now) (hlast : x.numInstallments ≤ n) : x.AllUnlocked now := by
  obtain ⟨hpos, rfl⟩ := unlocked_of_ok h
  have hle : x.numInstallments - 1 ≤ (now - x.startTime) / x.interval :=
    Nat.sub_le_of_le_add (le_min_iff.mp hlast).1
  have := (Nat.le_div_iff_mul_le hpos).mp hle
  unfold VestingSchedule.AllUnlocked
  omega

theorem installmentAmount_eq {n claimable : Nat} {amount : Int}
    (h : installmentAmount v x n claimable e s = .ok (amount, t))
    (hn : claimable = n - x.claimedInstallments) : amount = x.worth v.balance n := by
  subst hn
  simp only [installmentAmount, Tx.ok_bind, ok_divI, Tx.ok_ite, Tx.ok_pure, ok_i128] at h
  obtain ⟨_, _, ⟨_, rfl, rfl⟩, ⟨hlast, rfl, -⟩ | ⟨hlast, _, rfl, -⟩⟩ := h
  · exact (if_pos hlast).symm
  · exact (if_neg hlast).symm

/-- The installments are worth at most what the schedule is about. -/
theorem VestingSchedule.perInstallment_mul_le (h : 0 ≤ x.totalAmount) {n : Nat}
    (hn : n ≤ x.numInstallments) : x.perInstallment * (n : Int) ≤ x.totalAmount := by
  have hper : 0 ≤ x.perInstallment := perInstallment_nonneg h
  calc x.perInstallment * (n : Int)
      ≤ x.perInstallment * (x.numInstallments : Int) :=
        Int.mul_le_mul_of_nonneg_left (by exact_mod_cast hn) hper
    _ ≤ x.totalAmount := by
        rw [VestingSchedule.perInstallment, Int.tdiv_eq_ediv_of_nonneg h]
        by_cases hzero : (x.numInstallments : Int) = 0
        · simpa [hzero] using h
        · exact Int.ediv_mul_le _ hzero

/-- A penalty takes something off late installments; without one the amount stays. -/
theorem penalizedAmount_cases {p : VestingPenaltyConfig} {n : Nat} {base amount : Int}
    (h : penalizedAmount v x p n (n - x.claimedInstallments) base e s = .ok (amount, t))
    (htotal : 0 ≤ x.totalAmount) (hmore : x.claimedInstallments < n) :
    (amount = base ∧ e.timestamp - p.gracePeriodSeconds ≤ x.unlockTime (x.claimedInstallments + 1)) ∨
    (amount ≤ x.perInstallment * ((n - x.claimedInstallments : Nat) : Int) ∧
      (x.numInstallments ≤ n → amount ≤ v.balance)) := by
  simp only [penalizedAmount, Tx.ok_bind, ok_timestamp, ok_divI, Tx.ok_ite, Tx.ok_pure,
    ok_i128] at h
  obtain ⟨_, _, ⟨rfl, rfl⟩, ⟨_, _, _, ⟨_, rfl, rfl⟩, _, _, ⟨_, rfl, rfl⟩, _, _, ⟨_, rfl, rfl⟩,
    _, _, ⟨_, rfl, rfl⟩, _, _, ⟨_, rfl, rfl⟩, _, _, ⟨_, rfl, rfl⟩, rfl, _⟩ | ⟨hlate, rfl, _⟩⟩ := h
  · refine .inr ?_
    have hcount : (x.claimRange n).countP
        (fun i => decide (x.unlockTime i < e.timestamp - p.gracePeriodSeconds)) ≤
        n - x.claimedInstallments := by
      simpa [VestingSchedule.claimRange] using
        List.countP_le_length (p := fun i => decide (x.unlockTime i < e.timestamp - p.gracePeriodSeconds))
          (l := x.claimRange n)
    generalize (x.claimRange n).countP _ = late at hcount ⊢
    have hper : 0 ≤ x.perInstallment := perInstallment_nonneg htotal
    have hcut : 0 ≤ (x.perInstallment * (late : Int) * p.penaltyBps).tdiv 10000 :=
      Int.tdiv_nonneg (Int.mul_nonneg (Int.mul_nonneg hper (by omega)) (by omega)) (by decide)
    have hsum : x.perInstallment * ((n - x.claimedInstallments - late : Nat) : Int) +
        x.perInstallment * (late : Int) =
          x.perInstallment * ((n - x.claimedInstallments : Nat) : Int) := by
      rw [← Int.mul_add]
      congr 1
      omega
    rw [VestingSchedule.perInstallment] at *
    split
    · next hlast => exact ⟨(min_le_left _ _).trans (by omega), fun _ => min_le_right _ _⟩
    · next hlast => exact ⟨by omega, fun h => absurd h hlast⟩
  · refine .inl ⟨rfl, ?_⟩
    -- the first installment of the claim is not late
    have hfirst : x.claimedInstallments + 1 ∈ x.claimRange n := by
      simp [VestingSchedule.claimRange, List.mem_range'_1]
      omega
    have hnone := List.countP_eq_zero.mp (Nat.eq_zero_of_not_pos hlate) _ hfirst
    simpa using hnone

end Amounts

section Claims

variable {e : Env} {s t : State} {id : Nat} {v v' : Vault} {x : VestingSchedule} {c : VestingCall}
  {n : Nat}

/-! ## What one claim does -/

/-- No schedule is about a negative amount, as `set_vesting_schedule` only takes positive ones. -/
def State.TotalsNonneg (s : State) : Prop :=
  ∀ id i x, s.get (.vestingSchedule id i) = some x → 0 ≤ x.totalAmount

/-- Nothing has been rolled over from one schedule to another, and no schedule is about a negative
amount. -/
structure State.PlainVesting (s : State) : Prop where
  rollover : ∀ id config, s.get (.vestingRollover id) = some config → config.rolledAmount = 0
  total : s.TotalsNonneg

/-- The claim `c` covers the installments up to number `n`. -/
structure Advances (e : Env) (c : VestingCall) (id : Nat) (v : Vault) (x : VestingSchedule)
    (v' : Vault) (n : Nat) (s t : State) : Prop where
  vault : s.vault id = some v
  schedule : s.get (.vestingSchedule id 0) = some x
  after : t.vault id = some v'
  advanced : t.get (.vestingSchedule id 0) = some { x with claimedInstallments := n }
  others : ∀ k, k ≠ .vault id → k ≠ .vestingSchedule id 0 → t.get k = s.get k
  more : x.claimedInstallments < n
  within : n ≤ x.numInstallments
  covered : 0 ≤ v'.balance
  worth : c.withoutBonus x v.balance v'.balance n ≤ x.worth v.balance n
  rest : x.numInstallments ≤ n → s.TakesRest id e.timestamp x c ∨
    c.withoutBonus x v.balance v'.balance n ≤
      x.perInstallment * ((n - x.claimedInstallments : Nat) : Int)

theorem wp_addRollover_zero {amount : Int} {Q : Int → State → Prop}
    (h : ∀ config, s.get (.vestingRollover id) = some config → config.rolledAmount = 0)
    (hQ : Q amount s) : wp (addRollover id amount) Q e s := by
  simp only [addRollover, Tx.wp_bind, wp_storageGet, Tx.wp_ifSomeElse, Tx.wp_ite, wp_i128,
    wp_storageSet, Tx.wp_pure]
  refine ⟨fun config hconfig => ⟨fun hrolled _ => ?_, fun _ => hQ⟩, fun _ => hQ⟩
  have := h config hconfig
  omega

theorem unlockedForClaim_cases (h : unlockedForClaim id x e s = .ok (n, t))
    (hstart : x.startTime ≤ e.timestamp) :
    n ≤ x.numInstallments ∧ (x.numInstallments ≤ n →
      (s.get (.vestingAcceleration id)).any (·.accelerated) = true ∨ x.AllUnlocked e.timestamp) := by
  simp only [unlockedForClaim, Tx.ok_bind, ok_storageGet, Tx.ok_ite, Tx.ok_pure, ok_timestamp] at h
  obtain ⟨_, _, ⟨rfl, rfl⟩, ⟨haccelerated, rfl, -⟩ | ⟨_, _, _, ⟨rfl, rfl⟩, hunlocked⟩⟩ := h
  · exact ⟨le_rfl, fun _ => .inl haccelerated⟩
  · refine ⟨?_, fun hlast => .inr (allUnlocked_of_ok hunlocked hstart hlast)⟩
    rw [(unlocked_of_ok hunlocked).2]
    exact min_le_right _ _

/-- The facts that the three claims have in common. -/
theorem advances_of_payClaim {amount : Int} (hv : s.vault id = some v)
    (hx : s.get (.vestingSchedule id 0) = some x) (hmore : x.claimedInstallments < n)
    (hwithin : n ≤ x.numInstallments) (hle : amount ≤ v.balance)
    (hworth : c.withoutBonus x v.balance (v.balance - amount) n ≤ x.worth v.balance n)
    (hrest : x.numInstallments ≤ n → s.TakesRest id e.timestamp x c ∨
      c.withoutBonus x v.balance (v.balance - amount) n ≤
        x.perInstallment * ((n - x.claimedInstallments : Nat) : Int))
    {Q : Unit → State → Prop} (h : ∀ u v', Advances e c id v x v' n s u → Q () u) :
    wp (payClaim id v x amount n) Q e s := by
  refine wp_payClaim fun _ => h _ (v.withBalance (v.balance - amount)) ?_
  refine ⟨hv, hx, by simp [State.afterClaim], by simp [State.afterClaim], fun k hk hk' => ?_, hmore,
    hwithin, by simpa using hle, hworth, hrest⟩
  rw [State.afterClaim, State.get_put_of_ne hk', State.get_put_of_ne hk, State.get_transferAll]

theorem claimVestedInstallment_advances (hs : s.PlainVesting) :
    wp (claimVestedInstallment id) (fun _ t =>
      ∃ v x v' n, Advances e (.claimVestedInstallment id) id v x v' n s t) e s := by
  simp only [claimVestedInstallment, Tx.wp_bind, wp_assertNotPaused, wp_loadVault, wp_require,
    wp_loadClaimSchedule, wp_assertCliffReached, wp_unlockedForClaim, wp_storageGet,
    wp_installmentAmount]
  intro _ v hv _ x hx hclaimed hstart _ _ n hunlocked hdue own hown
  obtain ⟨hwithin, hlast⟩ := unlockedForClaim_cases hunlocked hstart
  obtain rfl := installmentAmount_eq hown rfl
  have hmore : x.claimedInstallments < n := by
    obtain hdue | hrolled := hdue
    · omega
    · obtain ⟨config, hconfig, hany⟩ := (Option.any_eq_true _ _).mp hrolled
      simp [hs.rollover id config hconfig] at hany
  refine wp_addRollover_zero (hs.rollover id) ?_
  -- whatever the penalty, the claim ends in the same way
  have hpay : ∀ amount, amount ≤ x.worth v.balance n →
      (x.numInstallments ≤ n → s.TakesRest id e.timestamp x (.claimVestedInstallment id) ∨
        amount ≤ x.perInstallment * ((n - x.claimedInstallments : Nat) : Int)) →
      wp (require (amount ≤ v.balance) .insufficientBalance)
        (fun _ t => wp (payClaim id v x amount n)
          (fun _ t => wp (onlyIf (amount < x.worth v.balance n) do
              let _ ← i128 (x.worth v.balance n - amount))
            (fun _ t => ∃ v x v' n, Advances e (.claimVestedInstallment id) id v x v' n s t) e t)
          e t) e s := by
    intro amount hworth hrest
    simp only [wp_require]
    refine fun hle => advances_of_payClaim (c := .claimVestedInstallment id) hv hx hmore hwithin hle
      (by simpa [VestingCall.withoutBonus] using hworth)
      (by simpa [VestingCall.withoutBonus] using hrest) fun u v' hu => ?_
    simp only [Tx.wp_onlyIf, Tx.wp_bind, wp_i128, Tx.wp_pure]
    exact ⟨fun _ _ => ⟨v, x, v', n, hu⟩, fun _ => ⟨v, x, v', n, hu⟩⟩
  simp only [Tx.wp_ifSomeElse, wp_penalizedAmount, Tx.wp_pure]
  refine ⟨fun p hp amount hamount => ?_, fun hnone => ?_⟩
  · obtain ⟨rfl, hontime⟩ | ⟨hcut, hbalance⟩ :=
      penalizedAmount_cases hamount (hs.total id 0 x hx) hmore
    · have hrest : ∀ p', s.get (.vestingPenalty id 0) = some p' →
          e.timestamp - p'.gracePeriodSeconds ≤ x.unlockTime (x.claimedInstallments + 1) := by
        intro p' hp'
        obtain rfl := Option.some.inj (hp.symm.trans hp')
        exact hontime
      simpa using hpay _ le_rfl fun hn => .inl ⟨hlast hn, hrest⟩
    · have hworth : amount ≤ x.worth v.balance n := by
        unfold VestingSchedule.worth
        split
        · next hn => exact hbalance hn
        · exact hcut
      simpa using hpay amount hworth fun _ => .inr hcut
  · simpa using hpay _ le_rfl fun hn => .inl ⟨hlast hn, fun p hp => by simp [hnone] at hp⟩

theorem claimCatchupVesting_advances :
    wp (claimCatchupVesting id) (fun _ t =>
      ∃ v x v' n, Advances e (.claimCatchupVesting id) id v x v' n s t) e s := by
  simp only [claimCatchupVesting, Tx.wp_bind, wp_assertNotPaused, wp_loadVault, wp_require,
    wp_storageGet, Tx.wp_fromSome, wp_loadClaimSchedule, wp_assertCliffReached, wp_timestamp,
    wp_unlockedInstallments, wp_u32, wp_installmentAmount]
  intro _ v hv _ config hconfig _ x hx hclaimed hstart _ _ unlocked hunlocked hdue _ amount hamount hle
  have hnum : unlocked ≤ x.numInstallments := by
    rw [(unlocked_of_ok hunlocked).2]
    exact min_le_right _ _
  set claimable := if 0 < config.maxCatchupInstallments then
    min (unlocked - x.claimedInstallments) config.maxCatchupInstallments
    else unlocked - x.claimedInstallments with hclaimable
  have hbounds : 0 < claimable ∧ claimable ≤ unlocked - x.claimedInstallments ∧
      (0 < config.maxCatchupInstallments → claimable ≤ config.maxCatchupInstallments) := by
    rw [hclaimable]
    split <;> omega
  obtain rfl := installmentAmount_eq hamount (Nat.add_sub_cancel_left ..).symm
  refine advances_of_payClaim (c := .claimCatchupVesting id) hv hx (by omega) (by omega) hle
    (by simp [VestingCall.withoutBonus]) (fun hlast => .inl ⟨?_, fun config' hconfig' hlimit => ?_⟩)
    fun u v' hu => Tx.wp_pure.mpr ⟨v, x, v', _, hu⟩
  · exact allUnlocked_of_ok hunlocked hstart (by omega)
  · obtain rfl := Option.some.inj (hconfig.symm.trans hconfig')
    have := hbounds.2.2 hlimit
    omega

theorem claimWithBonus_advances :
    wp (claimWithBonus id) (fun _ t =>
      ∃ v x v' n, Advances e (.claimWithBonus id) id v x v' n s t) e s := by
  simp only [claimWithBonus, Tx.wp_bind, wp_assertNotPaused, wp_loadVault, wp_require,
    wp_storageGet, Tx.wp_fromSome, wp_loadClaimSchedule, wp_assertCliffReached, wp_timestamp,
    wp_unlockedInstallments, wp_installmentAmount, wp_allOnTime, wp_i128, Tx.wp_ite]
  intro _ v hv _ config _ x hx hclaimed hstart _ _ n hunlocked hdue base hbase onTime _ _ _
  obtain rfl := installmentAmount_eq hbase rfl
  have hmore : x.claimedInstallments < n := by omega
  have hwithin : n ≤ x.numInstallments := by
    rw [(unlocked_of_ok hunlocked).2]
    exact min_le_right _ _
  have hrest : x.numInstallments ≤ n → s.TakesRest id e.timestamp x (.claimWithBonus id) :=
    allUnlocked_of_ok hunlocked hstart
  refine ⟨fun _ => ?_, fun hle => ?_⟩
  · exact advances_of_payClaim (c := .claimWithBonus id) hv hx hmore hwithin (min_le_right _ _)
      (min_le_right _ _) (fun hn => .inl (hrest hn)) fun u v' hu => Tx.wp_pure.mpr ⟨v, x, v', n, hu⟩
  · exact advances_of_payClaim (c := .claimWithBonus id) hv hx hmore hwithin (not_lt.mp hle)
      (min_le_right _ _) (fun hn => .inl (hrest hn)) fun u v' hu =>
        wp_reportBonusShares (Tx.wp_pure.mpr ⟨v, x, v', n, hu⟩)

theorem exec_advances (hs : s.PlainVesting) (hc : c.ClaimsFrom id) :
    wp (exec (.vesting c)) (fun _ t => ∃ v x v' n, Advances e c id v x v' n s t) e s := by
  cases c with
  | claimVestedInstallment i =>
      obtain rfl : i = id := hc
      simp only [exec, execVesting, Tx.wp_bind, Tx.wp_pure]
      exact claimVestedInstallment_advances hs
  | claimCatchupVesting i =>
      obtain rfl : i = id := hc
      simp only [exec, execVesting, Tx.wp_bind, Tx.wp_pure]
      exact claimCatchupVesting_advances
  | claimWithBonus i =>
      obtain rfl : i = id := hc
      simp only [exec, execVesting, Tx.wp_bind, Tx.wp_pure]
      exact claimWithBonus_advances
  | _ => exact hc.elim

/-- With the vault within its budget a claim pays at most what its installments are worth. -/
theorem Advances.due (h : Advances e c id v x v' n s t) (hs : s.PlainVesting)
    (hbudget : s.TakesRest id e.timestamp x c → v.balance ≤ x.unvested) :
    c.withoutBonus x v.balance v'.balance n ≤
      if x.numInstallments ≤ n then x.unvested
      else x.perInstallment * ((n - x.claimedInstallments : Nat) : Int) := by
  have hworth := h.worth
  unfold VestingSchedule.worth at hworth
  split at hworth
  · next hlast =>
      rw [if_pos hlast]
      obtain hrest | hcut := h.rest hlast
      · exact hworth.trans (hbudget hrest)
      · obtain rfl : n = x.numInstallments := le_antisymm h.within hlast
        have htotal := VestingSchedule.perInstallment_mul_le (hs.total id 0 x h.schedule) le_rfl
        have hsplit : x.perInstallment * ((x.numInstallments - x.claimedInstallments : Nat) : Int) =
            x.perInstallment * (x.numInstallments : Int) -
              x.perInstallment * (x.claimedInstallments : Int) := by
          rw [Int.natCast_sub h.more.le, Int.mul_sub]
        simp only [VestingSchedule.unvested, VestingSchedule.perInstallment] at *
        omega
  · next hlast =>
      rw [if_neg hlast]
      exact hworth

/-! ## What holds of all schedules -/

/-- Nothing is ever rolled over. -/
theorem execVesting_rollover (hs : s.PlainVesting) :
    wp (execVesting c) (fun _ t => ∀ id config, t.get (.vestingRollover id) = some config →
      config.rolledAmount = 0) e s := by
  have hclaim : ∀ {id}, c.ClaimsFrom id → wp (execVesting c) (fun _ t => ∀ id config,
      t.get (.vestingRollover id) = some config → config.rolledAmount = 0) e s := by
    intro id hc _ t hexec id' config hconfig
    obtain ⟨v, x, v', n, hdone⟩ := exec_advances hs hc _ _ hexec
    rw [hdone.others _ (by simp) (by simp)] at hconfig
    exact hs.rollover id' config hconfig
  by_cases harea : .rollover ∈ c.footprint.areas
  · cases c with
    | setVestingRollover v a enabled =>
        simp only [execVesting, setVestingRollover, Tx.wp_bind, wp_requireAuth, wp_loadVault,
          wp_require, wp_storageSet, wp_assertNotPaused]
        intro _ _ _ _ _ id' config hconfig
        by_cases h : id' = v
        · subst h
          obtain rfl : _ = config := by simpa using hconfig
          rfl
        · exact hs.rollover id' config (by simpa [h] using hconfig)
    | claimVestedInstallment v => exact hclaim rfl
    | claimCatchupVesting v => exact hclaim rfl
    | claimWithBonus v => exact hclaim rfl
    | _ => simp [VestingCall.footprint] at harea
  · refine Tx.wp_mono (execVesting_frame c) fun _ t hframe id config hconfig => ?_
    rw [hframe.get_of_area (by simpa using harea)] at hconfig
    exact hs.rollover id config hconfig

theorem exec_everySchedule {k : Call} {P : VestingSchedule → Prop} (hnum : s.Numbered)
    (hnew : ∀ start interval num amount cliff, interval ≠ 0 ∧ num ≠ 0 → 0 < amount →
      P ⟨start, interval, num, 0, amount, cliff⟩)
    (hcount : ∀ x n, P x → P { x with claimedInstallments := n }) (hs : s.EverySchedule P) :
    wp (exec k) (fun _ t => t.EverySchedule P) e s := by
  by_cases hk : ∃ o, k = .vesting o
  · obtain ⟨o, rfl⟩ := hk
    exact execVesting_everySchedule hnew hcount hs
  · refine Tx.wp_mono (exec_frame k hnum) fun _ t hframe id i x hx => hs id i x ?_
    have harea : .schedules ∉ (k.footprint s).areas := fun h => hk (Call.schedules_writer (.inl h))
    rwa [hframe.get_of_area (by simpa using harea)] at hx

theorem everySchedule_of_reachable {w : World} {P : VestingSchedule → Prop} (h : Reachable w)
    (hnew : ∀ start interval num amount cliff, interval ≠ 0 ∧ num ≠ 0 → 0 < amount →
      P ⟨start, interval, num, 0, amount, cliff⟩)
    (hcount : ∀ x n, P x → P { x with claimedInstallments := n }) : w.state.EverySchedule P :=
  reachable_invariant (I := fun s => s.EverySchedule P) h
    (fun w hw i j x hx => by simp [hw.get (k := .vestingSchedule i j) (by simp)] at hx)
    (fun hnum hs => exec_everySchedule hnum hnew hcount hs) fun _ hs => hs

theorem plainVesting_of_reachable {w : World} (h : Reachable w) : w.state.PlainVesting := by
  refine reachable_invariant (I := State.PlainVesting) h ?_ ?_ fun _ hs => ⟨hs.rollover, hs.total⟩
  · intro w hw
    refine ⟨fun i config hconfig => ?_, fun i j x hx => ?_⟩
    · simp [hw.get (k := .vestingRollover i) (by simp)] at hconfig
    · simp [hw.get (k := .vestingSchedule i j) (by simp)] at hx
  · intro s e c hnum hs _ t hexec
    have htotal : t.TotalsNonneg :=
      exec_everySchedule (P := fun x => 0 ≤ x.totalAmount) hnum (fun _ _ _ _ _ _ hpos => hpos.le)
        (fun _ _ h => h) hs.total _ _ hexec
    by_cases hc : ∃ o, c = .vesting o
    · obtain ⟨o, rfl⟩ := hc
      exact ⟨execVesting_rollover hs _ _ hexec, htotal⟩
    · have harea : .rollover ∉ (c.footprint s).areas :=
        fun h => hc (Call.schedules_writer (.inr (.inr (.inl h))))
      refine ⟨fun i config hconfig => hs.rollover i config ?_, htotal⟩
      rwa [(exec_frame c hnum _ _ hexec).get_of_area (by simpa using harea)] at hconfig

/-! ## Runs of claims -/

/-- What the claims of a run add up to, for a schedule of which the installments up to `n` have
been claimed. -/
structure ClaimLedger (id : Nat) (v : Vault) (x : VestingSchedule) (payments : List Payment)
    (n : Nat) (w : World) : Prop where
  reachable : Reachable w
  vault : ∃ v', w.state.vault id = some v' ∧ (v'.balance = v.balance ∨ 0 ≤ v'.balance)
  schedule : w.state.get (.vestingSchedule id 0) = some { x with claimedInstallments := n }
  bounds : n = x.claimedInstallments ∨ (x.claimedInstallments < n ∧ n ≤ x.numInstallments)
  covered : ∀ i ∈ payments.flatMap (·.installments), i ≤ n
  once : (payments.flatMap (·.installments)).Nodup
  paid : (payments.map (·.amount)).sum ≤
    if x.claimedInstallments < n ∧ x.numInstallments ≤ n then x.unvested
    else x.perInstallment * ((n - x.claimedInstallments : Nat) : Int)

theorem Reachable.step {w w' : World} {k : Event} (h : Reachable w) (hstep : Step w k w') :
    Reachable w' := by
  obtain ⟨w₀, ks, h₀, hrun⟩ := h
  exact ⟨w₀, k :: ks, h₀, hrun.next hstep⟩

/-- A claim pays the installments after those paid so far, within what is left. -/
theorem ClaimLedger.claim {w : World} {payments : List Payment} {m : Nat}
    (h : ClaimLedger id v x payments n w) {v₁ v₂ : Vault} {y : VestingSchedule} {u : World}
    (hdone : Advances e c id v₁ y v₂ m w.state u.state) (hu : Reachable u)
    (hbudget : w.state.TakesRest id e.timestamp y c → v₁.balance ≤ y.unvested) :
    ClaimLedger id v x
      ({ env := e, call := c
         installments := List.range' (y.claimedInstallments + 1) (m - y.claimedInstallments)
         amount := c.withoutBonus y v₁.balance v₂.balance m } :: payments) m u := by
  obtain rfl := Option.some.inj (h.schedule.symm.trans hdone.schedule)
  have hmore : n < m := hdone.more
  have hwithin : m ≤ x.numInstallments := hdone.within
  have hfirst : x.claimedInstallments ≤ n := by
    obtain hn | hn := h.bounds <;> omega
  have hdue := hdone.due (plainVesting_of_reachable h.reachable) hbudget
  refine ⟨hu, ⟨v₂, hdone.after, .inr hdone.covered⟩, hdone.advanced, .inr ⟨by omega, hwithin⟩,
    ?_, ?_, ?_⟩
  · intro i hi
    obtain hi | hi := List.mem_append.mp (List.flatMap_cons ▸ hi)
    · have := List.mem_range'_1.mp hi
      dsimp only at this
      omega
    · exact (h.covered i hi).trans hmore.le
  · rw [List.flatMap_cons, List.nodup_append]
    refine ⟨List.nodup_range', h.once, fun i hi j hj => ?_⟩
    have hlater := (List.mem_range'_1.mp hi).1
    have hearlier := h.covered j hj
    dsimp only at hlater
    omega
  · have hpaid := h.paid
    rw [if_neg (by omega)] at hpaid
    rw [List.map_cons, List.sum_cons]
    simp only [VestingSchedule.unvested, VestingSchedule.perInstallment] at *
    generalize x.totalAmount.tdiv x.numInstallments = per at *
    have hsplit : per * ((m - n : Nat) : Int) + per * ((n - x.claimedInstallments : Nat) : Int) =
        per * ((m - x.claimedInstallments : Nat) : Int) := by
      rw [← Int.mul_add]
      congr 1
      omega
    have hrest : per * (n : Int) = per * ((n - x.claimedInstallments : Nat) : Int) +
        per * (x.claimedInstallments : Int) := by
      rw [← Int.mul_add]
      congr 1
      omega
    split at hdue
    · next hlast =>
        rw [if_pos ⟨by omega, hlast⟩]
        omega
    · next hlast =>
        rw [if_neg (by omega)]
        omega

theorem ClaimLedger.paidOnce {w : World} {payments : List Payment} {v' : Vault}
    (h : ClaimLedger id v x payments n w) (hv' : w.state.vault id = some v') :
    PaidOnce v x payments v' := by
  obtain ⟨v₁, hv₁, hbalance⟩ := h.vault
  obtain rfl := Option.some.inj (hv₁.symm.trans hv')
  refine ⟨h.once, hbalance, h.paid.trans ?_⟩
  have htotal : 0 ≤ x.totalAmount :=
    (plainVesting_of_reachable h.reachable).total id 0 { x with claimedInstallments := n } h.schedule
  have hper : 0 ≤ x.perInstallment := perInstallment_nonneg htotal
  split
  · have hclaimed : 0 ≤ x.perInstallment * (x.claimedInstallments : Int) :=
      Int.mul_nonneg hper (by omega)
    simp only [VestingSchedule.unvested, VestingSchedule.perInstallment] at *
    omega
  · obtain hn | ⟨_, hn⟩ := h.bounds
    · simpa [hn] using htotal
    · exact VestingSchedule.perInstallment_mul_le htotal (by omega)

theorem claimLedger_of_run {w w' : World} {ks : List (Option Payment)} (hw : Reachable w)
    (hv : w.state.vault id = some v) (hx : w.state.get (.vestingSchedule id 0) = some x)
    (hrun : Run (Guarded (ClaimStep id) (Budgeted id)) w ks w') :
    ∃ n, ClaimLedger id v x ks.reduceOption n w' := by
  refine hrun.invariantHistory (I := fun ks w' => ∃ n, ClaimLedger id v x ks.reduceOption n w') ?_ ?_
  · refine ⟨x.claimedInstallments, hw, ⟨v, hv, .inl rfl⟩, hx, .inl rfl, ?_, ?_, ?_⟩
    all_goals simp
  · rintro ks w₁ k w₂ ⟨n, h⟩ ⟨hstep, hbudget⟩
    cases hstep with
    | claim hc hstep hv₁ hy hv₂ hy' =>
        have hreach := h.reachable.step hstep
        cases hstep with
        | call _ hexec =>
            obtain ⟨v₃, y₃, v₄, m, hdone⟩ :=
              exec_advances (plainVesting_of_reachable h.reachable) hc _ _ hexec
            obtain rfl := Option.some.inj (hv₁.symm.trans hdone.vault)
            obtain rfl := Option.some.inj (hy.symm.trans hdone.schedule)
            obtain rfl := Option.some.inj (hv₂.symm.trans hdone.after)
            obtain rfl := Option.some.inj (hy'.symm.trans hdone.advanced)
            exact ⟨m, h.claim hdone hreach (hbudget _ _ hv₁ hy)⟩
    | other hstep hvault hschedule =>
        exact ⟨n, h.reachable.step hstep, hvault ▸ h.vault, hschedule ▸ h.schedule, h.bounds,
          h.covered, h.once, h.paid⟩

end Claims

/-- However claims of a vault follow each other, with other calls between them that leave the
vault and its schedule alone: no installment is paid twice, no claim leaves a negative
balance, and together they pay, bonuses apart, at most the total of the schedule, if each
claim that takes the rest of the vault finds no more there than the schedule has left. -/
theorem installments_paid_once {w w' : World} {ks : List (Option Payment)} {id : Nat} {v : Vault}
    {x : VestingSchedule} (hw : Reachable w) (hv : w.state.vault id = some v)
    (hx : w.state.get (.vestingSchedule id 0) = some x)
    (hrun : Run (Guarded (ClaimStep id) (Budgeted id)) w ks w') :
    ∃ v', w'.state.vault id = some v' ∧ PaidOnce v x ks.reduceOption v' := by
  obtain ⟨n, hledger⟩ := claimLedger_of_run hw hv hx hrun
  obtain ⟨v', hv', -⟩ := hledger.vault
  exact ⟨v', hv', hledger.paidOnce hv'⟩

/-- Every claim that succeeds is a step of such a run. -/
theorem claimStep_of_step {w w' : World} {e : Env} {c : VestingCall} {id : Nat} (hw : Reachable w)
    (hc : c.ClaimsFrom id) (hstep : Step w (.call e (.vesting c)) w') :
    ∃ p : Payment, p.env = e ∧ p.call = c ∧ ClaimStep id w (some p) w' := by
  have hcopy := hstep
  cases hstep with
  | call _ hexec =>
      obtain ⟨v, x, v', n, hdone⟩ := exec_advances (plainVesting_of_reachable hw) hc _ _ hexec
      exact ⟨_, rfl, rfl, .claim hc hcopy hdone.vault hdone.schedule hdone.after hdone.advanced⟩

/-- The vault is worth its schedule of two installments; a catch-up limited to one
installment claims the first, and an ordinary claim the second. -/
theorem installments_paid_once_in_turn : ∃ w w' : World, ∃ p q : Payment, ∃ v v' : Vault,
    ∃ x : VestingSchedule, Reachable w ∧ w.state.vault 1 = some v ∧
      w.state.get (.vestingSchedule 1 0) = some x ∧ Run (ClaimStep 1) w [some q, some p] w' ∧
        w'.state.vault 1 = some v' ∧ v'.balance < v.balance ∧ PaidOnce v x [q, p] v' := by
  have hplay : (play (initialised ⟨8⟩ ⟨9⟩)
      [opensVault 1000, paysIn 500,
        (signedBy [⟨1⟩] 0, .vesting (.setVestingSchedule 1 ⟨1⟩ 0 10 2 500 0)),
        (signedBy [⟨1⟩] 0, .vesting (.setVestingCatchup 1 ⟨1⟩ true 1)),
        (signedBy [] 1000000, .release (.triggerRelease 1))]).any (fun w =>
      (play w [(signedBy [] 1000000, .vesting (.claimCatchupVesting 1))]).any fun u =>
        (play u [(signedBy [] 1000000, .vesting (.claimVestedInstallment 1))]).any fun w' =>
          (w.state.vault 1).any fun v => (w.state.get (.vestingSchedule 1 0)).any fun x =>
            (w.state.get (.vestingCatchUp 1)).any fun config =>
              decide (config.maxCatchupInstallments = 1) &&
              decide (x.numInstallments - x.claimedInstallments = 2) &&
              (u.state.vault 1).any fun v₁ => (u.state.get (.vestingSchedule 1 0)).any fun y =>
                decide (v₁.balance ≤ y.unvested) && (w'.state.vault 1).any fun v' =>
                  decide (v'.balance < v.balance)) = true := by
    decide +kernel
  obtain ⟨w, hw, hplay⟩ := (Option.any_eq_true _ _).mp hplay
  obtain ⟨u, hu, hplay⟩ := (Option.any_eq_true _ _).mp hplay
  obtain ⟨w', hw', hchecks⟩ := (Option.any_eq_true _ _).mp hplay
  simp only [Bool.and_eq_true, Option.any_eq_true, decide_eq_true_eq] at hchecks
  obtain ⟨v, hv, x, hx, config, hconfig, ⟨hlimit, hdue⟩, v₁, hv₁, y, hy, hle, v', hv', hlt⟩ := hchecks
  have hreach : Reachable w := reachable_of_play hw
  have hcatchup : VestingCall.ClaimsFrom 1 (.claimCatchupVesting 1) := rfl
  have hvested : VestingCall.ClaimsFrom 1 (.claimVestedInstallment 1) := rfl
  obtain ⟨p, -, hpc, hfirst⟩ := claimStep_of_step hreach hcatchup (step_of_play hu)
  obtain ⟨q, -, -, hlast⟩ :=
    claimStep_of_step (hreach.step (step_of_play hu)) hvested (step_of_play hw')
  have hbudget₁ : Budgeted 1 w (some p) := by
    intro _ x' _ hx' hrest
    rw [hpc] at hrest
    obtain rfl := Option.some.inj (hx.symm.trans hx')
    have := hrest.2 config hconfig (by omega)
    omega
  have hbudget₂ : Budgeted 1 u (some q) := by
    intro v₂ y' hv₂ hy' _
    obtain rfl := Option.some.inj (hv₁.symm.trans hv₂)
    obtain rfl := Option.some.inj (hy.symm.trans hy')
    exact hle
  obtain ⟨v'', hv'', hpaid⟩ := installments_paid_once hreach hv hx
    (.next (.next .start ⟨hfirst, hbudget₁⟩) ⟨hlast, hbudget₂⟩)
  obtain rfl := Option.some.inj (hv'.symm.trans hv'')
  exact ⟨w, w', p, q, v, v', x, hreach, hv, hx, .next (.next .start hfirst) hlast, hv', hlt, hpaid⟩

/-- The vault has 500 and a schedule about 100 of it: its only installment pays the heir all
500. -/
theorem last_installment_takes_all : ¬ ∀ (w w' : World) (ks : List (Option Payment)) (id : Nat)
    (v v' : Vault) (x : VestingSchedule), Reachable w → w.state.vault id = some v →
    w.state.get (.vestingSchedule id 0) = some x → Run (ClaimStep id) w ks w' →
    w'.state.vault id = some v' → PaidOnce v x ks.reduceOption v' := by
  have hplay : (play (initialised ⟨8⟩ ⟨9⟩)
      [opensVault 1000, paysIn 500,
        (signedBy [⟨1⟩] 0, .vesting (.setVestingSchedule 1 ⟨1⟩ 0 10 1 100 0)),
        (signedBy [] 1000000, .release (.triggerRelease 1))]).any (fun w =>
      (play w [(signedBy [] 1000000, .vesting (.claimVestedInstallment 1))]).any fun w' =>
        (w.state.vault 1).any fun v => (w.state.get (.vestingSchedule 1 0)).any fun x =>
          (w'.state.vault 1).any fun v' => (w'.state.get (.vestingSchedule 1 0)).any fun _ =>
            decide (v.balance = 500) && decide (v'.balance = 0) &&
              decide (x.totalAmount = 100)) = true := by
    decide +kernel
  obtain ⟨w, hw, hplay⟩ := (Option.any_eq_true _ _).mp hplay
  obtain ⟨w', hw', hchecks⟩ := (Option.any_eq_true _ _).mp hplay
  simp only [Bool.and_eq_true, Option.any_eq_true, decide_eq_true_eq] at hchecks
  obtain ⟨v, hv, x, hx, v', hv', x', hx', ⟨hbalance, hafter⟩, htotal⟩ := hchecks
  have hvested : VestingCall.ClaimsFrom 1 (.claimVestedInstallment 1) := rfl
  have hstep : ClaimStep 1 w _ w' := .claim hvested (step_of_play hw') hv hx hv' hx'
  intro h
  have hpaid := (h w w' _ 1 v v' x (reachable_of_play hw) hv hx (.next .start hstep) hv').total
  simp [VestingCall.withoutBonus, hbalance, hafter, htotal] at hpaid

end Heirloom
