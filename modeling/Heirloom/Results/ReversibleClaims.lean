import Heirloom.Results.VestedAmounts

/-!
# Claims with a reversal window

`initiate_vesting_claim` counts the installments that are due as claimed and remembers how many
were claimed before; `reverse_vesting_claim` writes that number back.

* `reversible_claim_iff`: where it is initiated, the direct claim would have succeeded and paid
  no more, if and only if its cliff is reached, the vault covers what is due, an accelerated
  schedule is not worth more at once, and the payment itself goes through. A reversal restores
  the count and the vault if and only if the claims in between have taken nothing out of it.
* `early_claim_and_stale_reversal`: a claim initiated before the cliff; and a claim whose reversal
  comes after the rest has been paid.
-/

namespace Heirloom

open Transaction Runs

/-- The call pays out of vault `id` on account of one of its vesting schedules. -/
def VestingCall.PaysFrom (id : Nat) : VestingCall → Prop
  | .claimVestedInstallment i | .claimCatchupVesting i | .claimWithBonus i
  | .claimMilestoneInstallments i | .claimStaggeredVesting i _ | .claimBeneficiaryVesting i _ =>
      i = id
  | _ => False

/-- A claim of any kind, with what it takes out of the vault, or a step that leaves the vault and
its schedule alone. -/
inductive PayoutStep (id : Nat) : World → Option Int → World → Prop
  | claim {w w' : World} {e : Env} {c : VestingCall} {v v' : Vault} :
      c.PaysFrom id → Step w (.call e (.vesting c)) w' →
      w.state.vault id = some v → w'.state.vault id = some v' →
      PayoutStep id w (some (v.balance - v'.balance)) w'
  | other {w w' : World} {k : Event} :
      Step w k w' → w'.state.vault id = w.state.vault id →
      w'.state.get (.vestingSchedule id 0) = w.state.get (.vestingSchedule id 0) →
      PayoutStep id w none w'

/-- What the direct claim of vault `id` would pay at `now`. -/
def State.directDue (s : State) (id now : Nat) (v : Vault) (x : VestingSchedule) : Int :=
  x.due (s.get (.vestingPenalty id 0)) v.balance now (s.unlockedFor id now x)

/-- The arithmetic of the direct claim stays in `i128`: the penalty, the balance left, and what is
taken off the due amount. -/
structure State.DirectFits (s : State) (id now : Nat) (v : Vault) (x : VestingSchedule) : Prop where
  penalty : ∀ p, s.get (.vestingPenalty id 0) = some p →
    0 < x.lateCount p now (s.unlockedFor id now x) → x.PenaltyFits p now (s.unlockedFor id now x)
  rest : InI128 (v.balance - s.directDue id now v x)
  reduced : s.directDue id now v x < x.worth v.balance (s.unlockedFor id now x) →
    InI128 (x.worth v.balance (s.unlockedFor id now x) - s.directDue id now v x)

/-- The direct claim passes its gates, and the payment goes through. An accelerated schedule may not
make it pay more than `limit`. -/
structure DirectlyClaimable (e : Env) (s : State) (id : Nat) (v : Vault) (x : VestingSchedule)
    (limit : Int) : Prop where
  cliff : x.startTime + x.cliffPeriod ≤ e.timestamp
  covered : s.directDue id e.timestamp v x ≤ v.balance
  accelerated : s.Accelerated id → s.directDue id e.timestamp v x ≤ limit
  fits : s.DirectFits id e.timestamp v x
  paid : PaysHeirs e s v (s.directDue id e.timestamp v x)

/-- The schedule has its claimed installments back, and the vault is what it was. -/
def Restored (id : Nat) (v : Vault) (x : VestingSchedule) (s : State) : Prop :=
  s.vault id = some v ∧
    (s.get (.vestingSchedule id 0)).map (·.claimedInstallments) = some x.claimedInstallments

section Reversible

variable {e : Env} {s t : State} {id : Nat} {v : Vault} {x : VestingSchedule}

/-! ## Initiating -/

/-- What a claim that is initiated has found, and what it leaves. -/
structure Initiates (e : Env) (id : Nat) (v : Vault) (x : VestingSchedule) (amount : Int)
    (s t : State) : Prop where
  running : (s.get .paused).getD false = false
  vault : s.vault id = some v
  released : v.status = .released
  schedule : s.get (.vestingSchedule id 0) = some x
  left : x.claimedInstallments < x.numInstallments
  started : x.startTime ≤ e.timestamp
  measurable : x.Measurable e.timestamp
  more : x.claimedInstallments < x.unlockedAt e.timestamp
  worth : x.unlockedAt e.timestamp < x.numInstallments → InI128
    (x.perInstallment * ((x.unlockedAt e.timestamp - x.claimedInstallments : Nat) : Int))
  amount : amount = x.worth v.balance (x.unlockedAt e.timestamp)
  same : t.vault id = some v
  counted : t.get (.vestingSchedule id 0) =
    some { x with claimedInstallments := x.unlockedAt e.timestamp }
  pending : ∃ p, t.get (.vestingPendingClaim id 0) = some p ∧
    p.prevInstallmentsClaimed = x.claimedInstallments

theorem initiateVestingClaim_spec {window : Nat} :
    wp (initiateVestingClaim id window) (fun amount t => ∃ v x, Initiates e id v x amount s t) e s := by
  simp only [initiateVestingClaim, Tx.wp_bind, wp_assertNotPaused, wp_require, wp_storageGet,
    wp_loadVault, wp_loadClaimSchedule, wp_timestamp, wp_unlockedInstallments,
    wp_installmentAmount, wp_u64, wp_storageSet, Tx.wp_pure]
  intro hrun _ _ v hv hreleased x hx hleft hstart n hn hdue amount hamount _
  obtain ⟨hmeasure, rfl, -⟩ := ok_unlockedInstallments.mp hn
  obtain ⟨⟨-, hworth⟩, rfl, -⟩ := ok_installmentAmount.mp hamount
  refine ⟨v, x, hrun, hv, hreleased, hx, hleft, hstart, hmeasure, ?_, hworth, rfl, by simpa using hv,
    by simp [VestingSchedule.unlockedAt], _, State.get_put_self, rfl⟩
  simp only [VestingSchedule.unlockedAt]
  omega

/-! ## The gates of the direct claim -/

/-- A penalty only takes something off. -/
theorem due_le_worth {penalty : Option VestingPenaltyConfig} {now n : Nat} (hx : 0 ≤ x.totalAmount) :
    x.due penalty v.balance now n ≤ x.worth v.balance n := by
  have hper : 0 ≤ x.perInstallment := perInstallment_nonneg hx
  unfold VestingSchedule.due
  split
  · exact le_rfl
  · next p =>
      have hcut : 0 ≤ x.reduction p now n :=
        Int.tdiv_nonneg (Int.mul_nonneg (Int.mul_nonneg hper (by omega)) (by omega)) (by decide)
      split
      swap
      · exact le_rfl
      unfold VestingSchedule.worth
      dsimp only
      split
      · exact min_le_right _ _
      · omega

theorem direct_iff (hs : s.PlainVesting) {amount : Int} (h : Initiates e id v x amount s t) :
    (∃ b u, claimVestedInstallment id e s = .ok (b, u) ∧ b ≤ amount) ↔
      DirectlyClaimable e s id v x amount := by
  have htotal := hs.total id 0 x h.schedule
  have hle : x.unlockedAt e.timestamp ≤ x.numInstallments := min_le_left _ _
  constructor
  · rintro ⟨b, u, hclaim, hb⟩
    obtain ⟨v', x', n, hopen, hpays, -⟩ := (ok_claimVestedInstallment hs).mp hclaim
    obtain rfl := Option.some.inj (h.vault.symm.trans hopen.vault)
    obtain rfl := Option.some.inj (h.schedule.symm.trans hopen.schedule)
    obtain rfl := hopen.reached
    obtain rfl : b = s.directDue id e.timestamp v x := hpays.due
    exact ⟨hopen.cliff, hpays.covered, fun _ => hb, ⟨hpays.penalty, hpays.rest, hpays.reduced⟩,
      hpays.paid⟩
  · rintro ⟨hcliff, hcovered, haccelerated, ⟨hpenalty, hrest, hreduced⟩, hpaid⟩
    have hreach : x.unlockedAt e.timestamp ≤ s.unlockedFor id e.timestamp x := by
      unfold State.unlockedFor
      split
      · exact hle
      · exact le_rfl
    have hworth : s.unlockedFor id e.timestamp x < x.numInstallments → InI128 (x.perInstallment *
        ((s.unlockedFor id e.timestamp x - x.claimedInstallments : Nat) : Int)) := by
      unfold State.unlockedFor
      split
      · exact fun hless => absurd hless (lt_irrefl _)
      · exact h.worth
    refine ⟨_, _, (ok_claimVestedInstallment hs).mpr ⟨v, x, _,
      ⟨h.running, h.vault, h.released, h.schedule, h.left, h.started, hcliff,
        fun _ => h.measurable, rfl, h.more.trans_le hreach⟩,
      ⟨rfl, hworth, hpenalty, hcovered, hpaid, hrest, hreduced⟩, rfl⟩, ?_⟩
    by_cases hacc : s.Accelerated id
    · exact haccelerated hacc
    · -- without acceleration both claims reach the same installments
      rw [h.amount]
      have hsame : s.unlockedFor id e.timestamp x = x.unlockedAt e.timestamp := if_neg hacc
      rw [hsame]
      exact due_le_worth htotal

/-! ## Reversing -/

/-- A claim changes the vault only in its balance, and the schedule only in its count. -/
theorem exec_paysFrom {c : VestingCall} (hs : s.PlainVesting) (hc : c.PaysFrom id)
    (hx : s.get (.vestingSchedule id 0) = some x) :
    wp (exec (.vesting c)) (fun _ t => (∃ v b, s.vault id = some v ∧
      t.vault id = some (v.withBalance b)) ∧
        ∃ n, t.get (.vestingSchedule id 0) = some { x with claimedInstallments := n }) e s := by
  have hclaims : ∀ {areas v amount t}, Claims areas id v amount s t →
      ∃ v b, s.vault id = some v ∧ t.vault id = some (v.withBalance b) := fun {_ v amount _} h =>
    ⟨v, v.balance - amount, h.transacts.before, by simp [h.transacts.after]⟩
  have hadvances : c.ClaimsFrom id → wp (exec (.vesting c)) (fun _ t => ∃ n,
      t.get (.vestingSchedule id 0) = some { x with claimedInstallments := n }) e s := by
    intro hfrom
    refine Tx.wp_mono (exec_advances hs hfrom) ?_
    rintro _ t ⟨v, y, v', n, h⟩
    obtain rfl := Option.some.inj (hx.symm.trans h.schedule)
    exact ⟨n, h.advanced⟩
  have hframe : .schedules ∉ c.footprint.areas → wp (exec (.vesting c)) (fun _ t => ∃ n,
      t.get (.vestingSchedule id 0) = some { x with claimedInstallments := n }) e s := by
    intro harea
    refine Tx.wp_mono (execVesting_frame c) fun _ t h => ⟨x.claimedInstallments, ?_⟩
    rw [h.get_of_area (by simpa using harea)]
    exact hx
  cases c with
  | claimVestedInstallment i =>
      obtain rfl : i = id := hc
      refine Tx.wp_and ?_ (hadvances rfl)
      simp only [exec, execVesting, Tx.wp_bind, Tx.wp_pure]
      refine Tx.wp_mono claimVestedInstallment_spec ?_
      rintro _ _ ⟨_, h⟩
      exact hclaims h.toClaims
  | claimCatchupVesting i =>
      obtain rfl : i = id := hc
      refine Tx.wp_and ?_ (hadvances rfl)
      simp only [exec, execVesting, Tx.wp_bind, Tx.wp_pure]
      refine Tx.wp_mono claimCatchupVesting_spec ?_
      rintro _ _ ⟨_, h⟩
      exact hclaims h.toClaims
  | claimWithBonus i =>
      obtain rfl : i = id := hc
      refine Tx.wp_and ?_ (hadvances rfl)
      simp only [exec, execVesting, Tx.wp_bind, Tx.wp_pure]
      refine Tx.wp_mono claimWithBonus_spec ?_
      rintro _ _ ⟨_, h⟩
      exact hclaims h.toClaims
  | claimMilestoneInstallments i =>
      obtain rfl : i = id := hc
      refine Tx.wp_and ?_ (hframe (by simp [VestingCall.footprint]))
      simp only [exec, execVesting, Tx.wp_bind, Tx.wp_pure]
      refine Tx.wp_mono claimMilestoneInstallments_spec ?_
      rintro _ _ ⟨_, _, h, _⟩
      exact hclaims h
  | claimStaggeredVesting i caller =>
      obtain rfl : i = id := hc
      refine Tx.wp_and ?_ (hframe (by simp [VestingCall.footprint]))
      simp only [exec, execVesting, Tx.wp_bind, Tx.wp_pure]
      refine Tx.wp_mono claimStaggeredVesting_spec ?_
      rintro amount _ ⟨v, _, h, _⟩
      exact ⟨v, v.balance - amount, h.before, by simp [h.after]⟩
  | claimBeneficiaryVesting i heir =>
      obtain rfl : i = id := hc
      refine Tx.wp_and ?_ (hframe (by simp [VestingCall.footprint]))
      simp only [exec, execVesting, Tx.wp_bind, Tx.wp_pure]
      refine Tx.wp_mono claimBeneficiaryVesting_spec ?_
      rintro amount _ ⟨v, h⟩
      exact ⟨v, v.balance - amount, h.transacts.before, by simp [h.transacts.after]⟩
  | _ => exact hc.elim

/-- What the claims of a run have made of the vault and its schedule. -/
structure Drained (id : Nat) (v : Vault) (x : VestingSchedule) (total : Int) (w : World) : Prop where
  reachable : Reachable w
  vault : w.state.vault id = some (v.withBalance (v.balance - total))
  schedule : ∃ n, w.state.get (.vestingSchedule id 0) = some { x with claimedInstallments := n }

theorem drained_of_run {w w' : World} {ks : List (Option Int)} (hw : Reachable w)
    (hv : w.state.vault id = some v) {n : Nat}
    (hx : w.state.get (.vestingSchedule id 0) = some { x with claimedInstallments := n })
    (hrun : Run (PayoutStep id) w ks w') : Drained id v x ks.reduceOption.sum w' := by
  refine hrun.invariantHistory (I := fun ks w' => Drained id v x ks.reduceOption.sum w')
    ⟨hw, ?_, n, hx⟩ ?_
  · simpa [Vault.withBalance] using hv
  · rintro ks w₁ k w₂ h hstep
    obtain ⟨m, hm⟩ := h.schedule
    cases hstep with
    | claim hc hstep hv₁ hv₂ =>
        have hreach := h.reachable.step hstep
        cases hstep with
        | call _ hexec =>
            obtain ⟨⟨v₃, b, hv₃, hb⟩, l, hl⟩ :=
              exec_paysFrom (plainVesting_of_reachable h.reachable) hc hm _ _ hexec
            obtain rfl := Option.some.inj (hv₁.symm.trans hv₃)
            obtain rfl := Option.some.inj (hv₂.symm.trans hb)
            obtain rfl := Option.some.inj (h.vault.symm.trans hv₁)
            refine ⟨hreach, hb.trans (congrArg (fun y => some (v.withBalance y)) ?_), l, hl⟩
            show b = v.balance - ((v.balance - ks.reduceOption.sum - b) :: ks.reduceOption).sum
            rw [List.sum_cons]
            omega
    | other hstep hvault hschedule =>
        exact ⟨h.reachable.step hstep, hvault ▸ h.vault, hschedule ▸ h.schedule⟩

theorem reverseVestingClaim_spec {caller : Address} {p : VestingPendingClaim} {n : Nat}
    (hp : s.get (.vestingPendingClaim id 0) = some p)
    (hx : s.get (.vestingSchedule id 0) = some { x with claimedInstallments := n }) :
    wp (reverseVestingClaim id caller) (fun _ t => t.vault id = s.vault id ∧
      t.get (.vestingSchedule id 0) =
        some { x with claimedInstallments := p.prevInstallmentsClaimed }) e s := by
  simp [reverseVestingClaim, hp, hx]

theorem initiated_of_step {w w' : World} {window : Nat}
    (h : Step w (.call e (.vesting (.initiateVestingClaim id window))) w') :
    w.clock ≤ e.timestamp ∧ w' = ⟨w'.state, e.timestamp⟩ ∧
      ∃ amount, initiateVestingClaim id window e w.state = .ok (amount, w'.state) := by
  cases h with
  | call hclock hexec =>
      simp only [exec, execVesting, Tx.ok_bind, Tx.ok_pure] at hexec
      obtain ⟨amount, _, hinit, _, rfl⟩ := hexec
      exact ⟨hclock, rfl, amount, hinit⟩

end Reversible

/-- A claim that is initiated: the direct claim would have succeeded then and paid no more if and
only if it passes its gates. And whatever claims of the vault follow, with other calls between
them that leave the vault and its schedule alone, if the claim is still pending then, its reversal
restores the count and the vault if and only if those claims have taken nothing out. -/
theorem reversible_claim_iff {w : World} {e : Env} {id window : Nat} {amount : Int} {t : State}
    {v : Vault} {x : VestingSchedule} (hw : Reachable w) (hclock : w.clock ≤ e.timestamp)
    (hinit : initiateVestingClaim id window e w.state = .ok (amount, t))
    (hv : w.state.vault id = some v) (hx : w.state.get (.vestingSchedule id 0) = some x) :
    ((∃ b u, claimVestedInstallment id e w.state = .ok (b, u) ∧ b ≤ amount) ↔
      DirectlyClaimable e w.state id v x amount) ∧
    ∀ (w₁ w₂ : World) (ks : List (Option Int)) (e' : Env) (caller : Address),
      Run (PayoutStep id) ⟨t, e.timestamp⟩ ks w₁ →
      w₁.state.get (.vestingPendingClaim id 0) = t.get (.vestingPendingClaim id 0) →
      Step w₁ (.call e' (.vesting (.reverseVestingClaim id caller))) w₂ →
      (Restored id v x w₂.state ↔ ks.reduceOption.sum = 0) := by
  have hs := plainVesting_of_reachable hw
  obtain ⟨v', x', h⟩ := initiateVestingClaim_spec _ _ hinit
  obtain rfl := Option.some.inj (hv.symm.trans h.vault)
  obtain rfl := Option.some.inj (hx.symm.trans h.schedule)
  refine ⟨direct_iff hs h, ?_⟩
  intro w₁ w₂ ks e' caller hrun hpending hstep
  have hreach : Reachable ⟨t, e.timestamp⟩ := by
    refine hw.step (k := .call e (.vesting (.initiateVestingClaim id window))) (.call hclock ?_)
    simp [exec, execVesting, hinit]
  have hdrained := drained_of_run hreach h.same h.counted hrun
  obtain ⟨p, hp, hprev⟩ := h.pending
  obtain ⟨n, hn⟩ := hdrained.schedule
  cases hstep with
  | call _ hexec =>
      obtain ⟨hsame, hcount⟩ := reverseVestingClaim_spec (hpending.trans hp) hn _ _ hexec
      have hrest : (v.withBalance (v.balance - ks.reduceOption.sum) = v) ↔
          ks.reduceOption.sum = 0 := by
        constructor
        · intro hback
          have hbalance : v.balance - ks.reduceOption.sum = v.balance :=
            congrArg Vault.balance hback
          omega
        · intro hnone
          rw [hnone, sub_zero]
          rfl
      simp only [Restored, hsame, hdrained.vault, hcount, hprev, Option.map_some, and_true,
        Option.some.injEq]
      exact hrest

/-- A claim of the first of two installments that is taken back, after a deposit into another
vault. -/
theorem reversible_claim_taken_back : ∃ (w w₂ : World) (e : Env) (v : Vault) (x : VestingSchedule)
    (amount : Int), Reachable w ∧ w.state.vault 1 = some v ∧
      w.state.get (.vestingSchedule 1 0) = some x ∧ amount = 250 ∧
        DirectlyClaimable e w.state 1 v x amount ∧ Restored 1 v x w₂.state := by
  have hplay : (play (initialised ⟨8⟩ ⟨9⟩)
      [opensVault 1000, paysIn 500,
        (signedBy [⟨1⟩] 0, .vesting (.setVestingSchedule 1 ⟨1⟩ 0 5000 2 500 0)),
        opensVault 5000,
        (signedBy [] 2000, .release (.triggerRelease 1))]).any (fun w =>
      (play w [(signedBy [] 2000, .vesting (.initiateVestingClaim 1 100))]).any fun w₀ =>
        (play w₀ [(signedBy [⟨1⟩] 2020, .vault (.deposit 2 ⟨1⟩ 70))]).any fun w₁ =>
          (play w₁ [(signedBy [⟨1⟩] 2050, .vesting (.reverseVestingClaim 1 ⟨1⟩))]).any fun _ =>
            (w.state.vault 1).any fun v =>
              (w.state.get (.vestingSchedule 1 0)).any fun (x : VestingSchedule) =>
              decide (x.worth v.balance (x.unlockedAt (signedBy [] 2000).timestamp) = (250 : Int)) &&
              decide (w₁.state.vault 1 = w₀.state.vault 1 ∧
                w₁.state.get (.vestingSchedule 1 0) = w₀.state.get (.vestingSchedule 1 0) ∧
                w₁.state.get (.vestingPendingClaim 1 0) =
                  w₀.state.get (.vestingPendingClaim 1 0)) &&
              match claimVestedInstallment 1 (signedBy [] 2000) w.state with
              | .ok (b, _) => decide (b ≤ 250)
              | .error _ => false) = true := by
    decide +kernel
  obtain ⟨w, hw, hplay⟩ := (Option.any_eq_true _ _).mp hplay
  obtain ⟨w₀, hw₀, hplay⟩ := (Option.any_eq_true _ _).mp hplay
  obtain ⟨w₁, hw₁, hplay⟩ := (Option.any_eq_true _ _).mp hplay
  obtain ⟨w₂, hw₂, hchecks⟩ := (Option.any_eq_true _ _).mp hplay
  simp only [Bool.and_eq_true, Option.any_eq_true, decide_eq_true_eq] at hchecks
  obtain ⟨v, hv, x, hx, ⟨hworth, hvault, hschedule, hpending⟩, hdirect⟩ := hchecks
  obtain ⟨hclock, hworld, amount, hinit⟩ := initiated_of_step (step_of_play hw₀)
  have hreach : Reachable w := reachable_of_play hw
  obtain ⟨hclaimable, hreversal⟩ := reversible_claim_iff hreach hclock hinit hv hx
  obtain rfl : amount = 250 := by
    obtain ⟨v', x', h⟩ := initiateVestingClaim_spec _ _ hinit
    obtain rfl := Option.some.inj (hv.symm.trans h.vault)
    obtain rfl := Option.some.inj (hx.symm.trans h.schedule)
    exact h.amount.trans hworth
  have hrun : Run (PayoutStep 1) ⟨w₀.state, (signedBy [] 2000).timestamp⟩ [none] w₁ := by
    rw [← hworld]
    exact .next .start (.other (step_of_play hw₁) hvault hschedule)
  refine ⟨w, w₂, _, v, x, 250, hreach, hv, hx, rfl, hclaimable.mp ?_,
    (hreversal w₁ w₂ [none] _ ⟨1⟩ hrun hpending (step_of_play hw₂)).mpr rfl⟩
  split at hdirect
  · next b u hok => exact ⟨b, u, hok, of_decide_eq_true hdirect⟩
  · cases hdirect

/-- With a cliff at 4000, the first installment can be initiated at 2000 but not claimed. And a
claim that is taken back after the rest has been paid leaves the vault empty, with both
installments unclaimed again. -/
theorem early_claim_and_stale_reversal :
    (¬ ∀ (w : World) (e : Env) (id window : Nat) (amount : Int) (t : State), Reachable w →
      w.clock ≤ e.timestamp → initiateVestingClaim id window e w.state = .ok (amount, t) →
      ∃ b u, claimVestedInstallment id e w.state = .ok (b, u) ∧ b ≤ amount) ∧
    ¬ ∀ (w w₁ w₂ : World) (e e' : Env) (id window : Nat) (amount : Int) (t : State) (v : Vault)
      (x : VestingSchedule) (ks : List (Option Int)) (caller : Address), Reachable w →
      w.clock ≤ e.timestamp → initiateVestingClaim id window e w.state = .ok (amount, t) →
      w.state.vault id = some v → w.state.get (.vestingSchedule id 0) = some x →
      Run (PayoutStep id) ⟨t, e.timestamp⟩ ks w₁ →
      w₁.state.get (.vestingPendingClaim id 0) = t.get (.vestingPendingClaim id 0) →
      Step w₁ (.call e' (.vesting (.reverseVestingClaim id caller))) w₂ →
      Restored id v x w₂.state := by
  constructor
  · have hplay : (play (initialised ⟨8⟩ ⟨9⟩)
        [opensVault 1000, paysIn 500,
          (signedBy [⟨1⟩] 0, .vesting (.setVestingSchedule 1 ⟨1⟩ 0 5000 2 500 4000)),
          (signedBy [] 2000, .release (.triggerRelease 1))]).any (fun w =>
        (play w [(signedBy [] 2000, .vesting (.initiateVestingClaim 1 100))]).any fun _ =>
          failedWith .cliffNotReached (claimVestedInstallment 1 (signedBy [] 2000) w.state)) = true := by
      decide +kernel
    obtain ⟨w, hw, hplay⟩ := (Option.any_eq_true _ _).mp hplay
    obtain ⟨w₁, hw₁, hfailed⟩ := (Option.any_eq_true _ _).mp hplay
    obtain ⟨hclock, -, amount, hinit⟩ := initiated_of_step (step_of_play hw₁)
    intro h
    obtain ⟨b, u, hok, -⟩ := h w _ 1 100 amount _ (reachable_of_play hw) hclock hinit
    rw [error_of_failedWith hfailed] at hok
    cases hok
  · have hplay : (play (initialised ⟨8⟩ ⟨9⟩)
        [opensVault 1000, paysIn 500,
          (signedBy [⟨1⟩] 0, .vesting (.setVestingSchedule 1 ⟨1⟩ 0 5000 2 500 0)),
          (signedBy [] 2000, .release (.triggerRelease 1))]).any (fun w =>
        (play w [(signedBy [] 2000, .vesting (.initiateVestingClaim 1 10000))]).any fun w₀ =>
          (play w₀ [(signedBy [] 5000, .vesting (.claimVestedInstallment 1))]).any fun w₁ =>
            (play w₁ [(signedBy [⟨1⟩] 5000, .vesting (.reverseVestingClaim 1 ⟨1⟩))]).any fun w₂ =>
              (w.state.vault 1).any fun v => (w.state.get (.vestingSchedule 1 0)).any fun _ =>
                (w₀.state.vault 1).any fun _ => (w₁.state.vault 1).any fun _ =>
                  (w₂.state.vault 1).any fun v₂ => decide (v.balance = 500 ∧ v₂.balance = 0) &&
                    decide (w₁.state.get (.vestingPendingClaim 1 0) =
                      w₀.state.get (.vestingPendingClaim 1 0))) = true := by
      decide +kernel
    obtain ⟨w, hw, hplay⟩ := (Option.any_eq_true _ _).mp hplay
    obtain ⟨w₀, hw₀, hplay⟩ := (Option.any_eq_true _ _).mp hplay
    obtain ⟨w₁, hw₁, hplay⟩ := (Option.any_eq_true _ _).mp hplay
    obtain ⟨w₂, hw₂, hchecks⟩ := (Option.any_eq_true _ _).mp hplay
    simp only [Bool.and_eq_true, Option.any_eq_true, decide_eq_true_eq] at hchecks
    obtain ⟨v, hv, x, hx, v₀, hv₀, v₁, hv₁, v₂, hv₂, ⟨hbefore, hafter⟩, hpending⟩ := hchecks
    obtain ⟨hclock, hworld, amount, hinit⟩ := initiated_of_step (step_of_play hw₀)
    have hclaim : PayoutStep 1 w₀ (some (v₀.balance - v₁.balance)) w₁ := by
      have hfrom : VestingCall.PaysFrom 1 (.claimVestedInstallment 1) := rfl
      exact .claim hfrom (step_of_play hw₁) hv₀ hv₁
    have hrun : Run (PayoutStep 1) ⟨w₀.state, (signedBy [] 2000).timestamp⟩
        [some (v₀.balance - v₁.balance)] w₁ := by
      rw [← hworld]
      exact .next .start hclaim
    intro h
    have hback := h w w₁ w₂ _ _ 1 10000 amount _ v x _ ⟨1⟩ (reachable_of_play hw) hclock hinit hv hx
      hrun hpending (step_of_play hw₂)
    obtain rfl := Option.some.inj (hv₂.symm.trans hback.1)
    omega

end Heirloom
