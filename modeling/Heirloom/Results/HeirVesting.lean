import Heirloom.System
import Mathlib.Algebra.Order.BigOperators.Group.Finset

/-!
# Schedules of single heirs

`set_beneficiary_vesting` makes the whole balance the total of one heir, and the last claim of an
heir takes the balance that it finds, so the heirs of a vault share one balance without a check
that their totals fit into it.

* `heirs_claim_in_full`: setting a schedule keeps the totals within the balance exactly if the other
  totals add up to nothing. And along every run of claims in which each last claim of an heir finds
  just the rest of its total, every heir has received at most its total, all of it once its
  installments are claimed, and what is outstanding is covered; the first claim that finds
  something else breaks this.
* `first_heir_takes_all`: a total that is below the balance, and one that is not covered any more.
-/

namespace Heirloom

open Transaction Runs

namespace BeneficiaryVestingSchedule

/-! ## One claim -/

def perInstallment (x : BeneficiaryVestingSchedule) : Int := x.totalAmount.tdiv x.numInstallments

/-- The installments unlocked at `now`. -/
def unlockedAt (x : BeneficiaryVestingSchedule) (now : Nat) : Nat :=
  min x.numInstallments ((now - x.startTime) / x.interval + 1)

/-- What a claim at `now` is about to pay: the last one takes the balance. -/
def due (x : BeneficiaryVestingSchedule) (balance : Int) (now : Nat) : Int :=
  if x.unlockedAt now = x.numInstallments then balance
  else x.perInstallment * ((x.unlockedAt now - x.claimedInstallments : Nat) : Int)

/-- The schedule after a claim at `now`. -/
def claimedAt (x : BeneficiaryVestingSchedule) (now : Nat) : BeneficiaryVestingSchedule :=
  { x with claimedInstallments := x.unlockedAt now }

/-- The schedule lets its heir claim at `now`: the cliff is over, its times can be computed, and
some unlocked installment is unclaimed. -/
structure Opens (x : BeneficiaryVestingSchedule) (now : Nat) : Prop where
  fits : x.startTime + x.cliffPeriod ≤ u64Max
  cliff : x.startTime + x.cliffPeriod ≤ now
  interval : x.interval ≠ 0
  elapsed : (now - x.startTime) / x.interval + 1 ≤ u64Max
  unclaimed : x.claimedInstallments < x.unlockedAt now

/-- The heir has received `amount` and nothing beyond its total, all of it with the last
installment. -/
def PaidFairly (x : BeneficiaryVestingSchedule) (amount : Int) : Prop :=
  amount ≤ x.totalAmount ∧
    (0 < x.claimedInstallments → x.claimedInstallments = x.numInstallments →
      amount = x.totalAmount)

/-- What the heir has received after its claims, if the last one paid the rest of the total. -/
def earned (x : BeneficiaryVestingSchedule) : Int :=
  if 0 < x.claimedInstallments ∧ x.claimedInstallments = x.numInstallments then x.totalAmount
  else x.perInstallment * x.claimedInstallments

end BeneficiaryVestingSchedule

section Claims

variable {e : Env} {s t : State} {id : Nat} {v : Vault} {heir : Address}
  {x : BeneficiaryVestingSchedule} {amount : Int}

/-- The vault is released, the schedule of the heir is open and what is due can be paid. -/
structure HeirClaims (e : Env) (s : State) (id : Nat) (heir : Address) (v : Vault)
    (x : BeneficiaryVestingSchedule) : Prop where
  vault : s.vault id = some v
  released : v.status = .released
  schedule : s.get (.beneficiaryVestingSchedule id heir) = some x
  opens : x.Opens e.timestamp
  product : InI128 (x.perInstallment * ((x.unlockedAt e.timestamp - x.claimedInstallments : Nat) : Int))
  pos : 0 < x.due v.balance e.timestamp
  le : x.due v.balance e.timestamp ≤ v.balance
  rest : InI128 (v.balance - x.due v.balance e.timestamp)
  payable : Payable e s v.tokenAddress currentContractAddress heir (x.due v.balance e.timestamp)

/-- A claim succeeds exactly if it is open, and then pays what is due. -/
theorem ok_claimBeneficiaryVesting :
    claimBeneficiaryVesting id heir e s = .ok (amount, t) ↔ ∃ v x, HeirClaims e s id heir v x ∧
      amount = x.due v.balance e.timestamp ∧
      t = ((s.put (.vault id) (v.withBalance (v.balance - amount))).put
        (.beneficiaryVestingSchedule id heir) (x.claimedAt e.timestamp)).pay
          v.tokenAddress currentContractAddress heir amount := by
  simp only [claimBeneficiaryVesting, Tx.ok_bind, ok_loadVault, ok_require, ok_storageGet,
    Tx.ok_fromSome, ok_timestamp, ok_u64, ok_unlockedInstallments, ok_divI, ok_i128, ok_saveVault,
    ok_storageSet, ok_transfer, Tx.ok_pure]
  constructor
  · rintro ⟨v, _, ⟨hv, rfl⟩, _, _, ⟨hreleased, rfl⟩, _, _, ⟨hget, rfl⟩, x, _, ⟨rfl, rfl⟩, h⟩
    obtain ⟨_, _, ⟨rfl, rfl⟩, _, _, ⟨hfits, rfl, rfl⟩, _, _, ⟨hcliff, rfl⟩, _, _,
      ⟨⟨hinterval, helapsed⟩, rfl, rfl⟩, _, _, ⟨hunclaimed, rfl⟩, h⟩ := h
    obtain ⟨_, _, ⟨hnum, rfl, rfl⟩, _, _, ⟨hproduct, rfl, rfl⟩, _, _, ⟨⟨hpos, hle⟩, rfl⟩, _, _,
      ⟨hrest, rfl, rfl⟩, h⟩ := h
    obtain ⟨_, _, rfl, _, _, rfl, _, _, ⟨hpay, rfl⟩, rfl, rfl⟩ := h
    exact ⟨v, x, ⟨hv, hreleased, hget, ⟨hfits, hcliff, hinterval, helapsed, hunclaimed⟩, hproduct,
      hpos, hle, hrest, hpay⟩, rfl, rfl⟩
  · rintro ⟨v, x, h, rfl, rfl⟩
    have hnum : (x.numInstallments : Int) ≠ 0 := by
      have hle : x.unlockedAt e.timestamp ≤ x.numInstallments := min_le_left _ _
      have := h.opens.unclaimed
      omega
    exact ⟨v, s, ⟨h.vault, rfl⟩, (), s, ⟨h.released, rfl⟩, _, s, ⟨h.schedule, rfl⟩, x, s, ⟨rfl, rfl⟩,
      _, s, ⟨rfl, rfl⟩, _, s, ⟨h.opens.fits, rfl, rfl⟩, (), s, ⟨h.opens.cliff, rfl⟩, _, s,
      ⟨⟨h.opens.interval, h.opens.elapsed⟩, rfl, rfl⟩, (), s, ⟨h.opens.unclaimed, rfl⟩, _, s,
      ⟨hnum, rfl, rfl⟩, _, s, ⟨h.product, rfl, rfl⟩, (), s, ⟨⟨h.pos, h.le⟩, rfl⟩, _, s,
      ⟨h.rest, rfl, rfl⟩, (), _, rfl, (), _, rfl, (), _, ⟨h.payable, rfl⟩, rfl, rfl⟩

end Claims

/-! ## Totals -/

/-- The total that the heir is promised. -/
def State.heirTotal (s : State) (id : Nat) (heir : Address) : Int :=
  (s.get (.beneficiaryVestingSchedule id heir)).elim 0 (·.totalAmount)

section Totals

variable {e : Env} {s t : State} {id : Nat} {caller heir : Address} {start interval num cliff : Nat}

/-- A new schedule has the balance as its total, whatever the other heirs have. -/
theorem ok_setBeneficiaryVesting {u : Unit}
    (h : setBeneficiaryVesting id caller heir start interval num cliff e s = .ok (u, t)) :
    ∃ v, s.vault id = some v ∧ caller = v.owner ∧ t = s.put (.beneficiaryVestingSchedule id heir)
      ⟨heir, id, start, interval, num, 0, v.balance, cliff⟩ := by
  simp only [setBeneficiaryVesting, Tx.ok_bind, ok_requireAuth, ok_loadVault, ok_require,
    ok_storageSet] at h
  obtain ⟨_, _, ⟨_, rfl⟩, v, _, ⟨hv, rfl⟩, _, _, ⟨howner, rfl⟩, _, _, ⟨_, rfl⟩, rfl⟩ := h
  exact ⟨v, hv, howner, rfl⟩

theorem heirTotal_put_of_ne {x : BeneficiaryVestingSchedule} {other : Address} (h : other ≠ heir) :
    (s.put (.beneficiaryVestingSchedule id heir) x).heirTotal id other = s.heirTotal id other := by
  simp [State.heirTotal, h]

theorem heirTotal_put {x : BeneficiaryVestingSchedule} :
    (s.put (.beneficiaryVestingSchedule id heir) x).heirTotal id heir = x.totalAmount := by
  simp [State.heirTotal]

/-- The totals fit into the balance exactly if those of the other heirs add up to nothing. -/
theorem totals_fit_iff {u : Unit} {v : Vault} {others : Finset Address}
    (h : setBeneficiaryVesting id caller heir start interval num cliff e s = .ok (u, t))
    (hv : t.vault id = some v) (hheir : heir ∉ others) :
    ∑ a ∈ insert heir others, t.heirTotal id a ≤ v.balance ↔
      ∑ a ∈ others, s.heirTotal id a ≤ 0 := by
  obtain ⟨v', hv', -, rfl⟩ := ok_setBeneficiaryVesting h
  obtain rfl : v' = v := by simpa [hv'] using hv
  have hothers : ∑ a ∈ others, (s.put (.beneficiaryVestingSchedule id heir)
      ⟨heir, id, start, interval, num, 0, v'.balance, cliff⟩).heirTotal id a =
        ∑ a ∈ others, s.heirTotal id a := by
    refine Finset.sum_congr rfl fun a ha => heirTotal_put_of_ne ?_
    rintro rfl
    exact hheir ha
  rw [Finset.sum_insert hheir, hothers, heirTotal_put]
  exact add_le_iff_nonpos_right _

end Totals

/-! ## Runs of claims -/

/-- The contract, with what each heir of one vault has received. -/
structure HeirBooks where
  world : World
  received : Address → Int

structure HeirClaim where
  heir : Address
  now : Nat

/-- A claim by one of the heirs of vault `id`, or a step that leaves the vault and their schedules
alone. -/
inductive HeirStep (id : Nat) (heirs : Finset Address) :
    HeirBooks → Option HeirClaim → HeirBooks → Prop
  | claim {w w' : World} {e : Env} {heir : Address} {v : Vault} {x : BeneficiaryVestingSchedule}
      {r : Address → Int} :
      Step w (.call e (.vesting (.claimBeneficiaryVesting id heir))) w' → heir ∈ heirs →
      w.state.vault id = some v → w.state.get (.beneficiaryVestingSchedule id heir) = some x →
      HeirStep id heirs ⟨w, r⟩ (some ⟨heir, e.timestamp⟩)
        ⟨w', Function.update r heir (r heir + x.due v.balance e.timestamp)⟩
  | other {w w' : World} {k : Event} {r : Address → Int} :
      Step w k w' → w'.state.vault id = w.state.vault id →
      (∀ heir ∈ heirs, w'.state.get (.beneficiaryVestingSchedule id heir) =
        w.state.get (.beneficiaryVestingSchedule id heir)) →
      HeirStep id heirs ⟨w, r⟩ none ⟨w', r⟩

/-- No heir has received more than its total, and all of it with its last installment. -/
def HeirBooks.Fair (b : HeirBooks) (id : Nat) (heirs : Finset Address) : Prop :=
  ∀ heir ∈ heirs, ∀ x, b.world.state.get (.beneficiaryVestingSchedule id heir) = some x →
    x.PaidFairly (b.received heir)

/-- The claim of a last installment finds a balance that is just the rest of the total, which is
what the schedule has not paid for the installments that are claimed. -/
def FindsRest (id : Nat) (b : HeirBooks) : Option HeirClaim → Prop
  | some c => ∀ v x, b.world.state.vault id = some v →
      b.world.state.get (.beneficiaryVestingSchedule id c.heir) = some x →
      x.unlockedAt c.now = x.numInstallments → v.balance = x.totalAmount - x.earned
  | none => True

/-- The receipts are what the schedules say and what has left the vault. -/
structure HeirBooks.Balanced (b : HeirBooks) (id : Nat) (heirs : Finset Address) (w : World)
    (v : Vault) : Prop where
  vault : b.world.state.vault id =
    some (v.withBalance (v.balance - ∑ heir ∈ heirs, b.received heir))
  earned : ∀ heir ∈ heirs, ∀ x,
    b.world.state.get (.beneficiaryVestingSchedule id heir) = some x →
      x.claimedInstallments ≤ x.numInstallments ∧ 0 ≤ x.totalAmount ∧ b.received heir = x.earned
  unset : ∀ heir ∈ heirs, b.world.state.get (.beneficiaryVestingSchedule id heir) = none →
    b.received heir = 0
  totals : ∀ heir ∈ heirs, b.world.state.heirTotal id heir = w.state.heirTotal id heir

section Runs

variable {e : Env} {id : Nat} {heirs : Finset Address} {heir : Address} {w w₁ w' : World}
  {v v₁ : Vault} {x : BeneficiaryVestingSchedule} {r : Address → Int} {b : HeirBooks}

namespace BeneficiaryVestingSchedule

theorem perInstallment_mul_le {n : Nat} (htotal : 0 ≤ x.totalAmount) (hn : n ≤ x.numInstallments) :
    x.perInstallment * n ≤ x.totalAmount := by
  have hper : 0 ≤ x.perInstallment := Int.tdiv_nonneg htotal (Int.natCast_nonneg _)
  calc x.perInstallment * n
      ≤ x.perInstallment * x.numInstallments :=
        Int.mul_le_mul_of_nonneg_left (by exact_mod_cast hn) hper
    _ ≤ x.totalAmount := by
        rcases Nat.eq_zero_or_pos x.numInstallments with hzero | hpos
        · simpa [hzero] using htotal
        · simpa [perInstallment, htotal] using
            Int.tdiv_mul_le x.totalAmount (Int.natCast_ne_zero.mpr hpos.ne')

theorem paidFairly_earned (htotal : 0 ≤ x.totalAmount)
    (hn : x.claimedInstallments ≤ x.numInstallments) : x.PaidFairly x.earned := by
  unfold earned
  split
  · exact ⟨le_rfl, fun _ _ => rfl⟩
  · next hopen => exact ⟨perInstallment_mul_le htotal hn, fun h₁ h₂ => absurd ⟨h₁, h₂⟩ hopen⟩

/-- A claim that pays what is due earns it, if a last one finds the rest of the total. -/
theorem earned_claimedAt {now : Nat} {balance : Int}
    (hclaim : x.claimedInstallments < x.unlockedAt now)
    (hrest : x.unlockedAt now = x.numInstallments → balance = x.totalAmount - x.earned) :
    (x.claimedAt now).earned = x.earned + x.due balance now := by
  have hle : x.unlockedAt now ≤ x.numInstallments := min_le_left _ _
  by_cases hlast : x.unlockedAt now = x.numInstallments
  · have hearned : (x.claimedAt now).earned = x.totalAmount := if_pos ⟨Nat.zero_lt_of_lt hclaim, hlast⟩
    rw [hearned, due, if_pos hlast, hrest hlast]
    omega
  · have hbefore : x.earned = x.perInstallment * x.claimedInstallments :=
      if_neg (by omega)
    have hafter : (x.claimedAt now).earned = x.perInstallment * x.unlockedAt now :=
      if_neg fun h => hlast h.2
    rw [hbefore, hafter, due, if_neg hlast, ← Int.mul_add]
    congr 1
    omega

end BeneficiaryVestingSchedule

theorem sum_update_received {amount : Int} (h : heir ∈ heirs) :
    ∑ a ∈ heirs, Function.update r heir (r heir + amount) a = ∑ a ∈ heirs, r a + amount := by
  rw [← Finset.add_sum_erase _ _ h, ← Finset.add_sum_erase heirs r h, Function.update_self]
  have hrest : ∑ a ∈ heirs.erase heir, Function.update r heir (r heir + amount) a =
      ∑ a ∈ heirs.erase heir, r a :=
    Finset.sum_congr rfl fun a ha => Function.update_of_ne (Finset.ne_of_mem_erase ha) _ _
  rw [hrest]
  omega

theorem heirClaims_of_step
    (hstep : Step w₁ (.call e (.vesting (.claimBeneficiaryVesting id heir))) w') :
    ∃ v x, HeirClaims e w₁.state id heir v x ∧
      w'.state.vault id = some (v.withBalance (v.balance - x.due v.balance e.timestamp)) ∧
      (∀ a, w'.state.get (.beneficiaryVestingSchedule id a) =
        if a = heir then some (x.claimedAt e.timestamp)
        else w₁.state.get (.beneficiaryVestingSchedule id a)) := by
  cases hstep with
  | call _ hexec =>
      simp only [exec, execVesting, Tx.ok_bind, Tx.ok_pure] at hexec
      obtain ⟨amount, _, hclaim, _, rfl⟩ := hexec
      obtain ⟨v, x, h, rfl, rfl⟩ := ok_claimBeneficiaryVesting.mp hclaim
      refine ⟨v, x, h, by simp, fun a => ?_⟩
      split
      · next hself =>
          subst hself
          simp
      · next hother => simp [hother]

theorem HeirBooks.Balanced.claim (h : Balanced ⟨w₁, r⟩ id heirs w v)
    (hstep : Step w₁ (.call e (.vesting (.claimBeneficiaryVesting id heir))) w') (hheir : heir ∈ heirs)
    (hv₁ : w₁.state.vault id = some v₁)
    (hx : w₁.state.get (.beneficiaryVestingSchedule id heir) = some x)
    (hrest : x.unlockedAt e.timestamp = x.numInstallments → v₁.balance = x.totalAmount - x.earned) :
    Balanced ⟨w', Function.update r heir (r heir + x.due v₁.balance e.timestamp)⟩ id heirs w v := by
  obtain ⟨v', x', hclaims, hvault, hget⟩ := heirClaims_of_step hstep
  obtain rfl := Option.some.inj (hclaims.vault.symm.trans hv₁)
  obtain rfl := Option.some.inj (hclaims.schedule.symm.trans hx)
  obtain rfl := Option.some.inj (hclaims.vault.symm.trans h.vault)
  obtain ⟨-, htotal, hearned⟩ := h.earned heir hheir x' hx
  refine ⟨?_, fun a ha y hy => ?_, fun a ha hnone => ?_, fun a ha => ?_⟩
  · show w'.state.vault id = some (v.withBalance (v.balance - ∑ a ∈ heirs, Function.update r heir _ a))
    rw [hvault, sum_update_received hheir, ← sub_sub]
    rfl
  · rw [hget a] at hy
    split at hy
    · next hself =>
        subst hself
        obtain rfl := Option.some.inj hy
        refine ⟨min_le_left _ _, htotal, (Function.update_self _ _ _).trans ?_⟩
        replace hearned : r a = x'.earned := hearned
        rw [hearned]
        exact (BeneficiaryVestingSchedule.earned_claimedAt hclaims.opens.unclaimed hrest).symm
    · next hother =>
        obtain ⟨hle, hpos, hsame⟩ := h.earned a ha y hy
        exact ⟨hle, hpos, (Function.update_of_ne hother _ _).trans hsame⟩
  · rw [hget a] at hnone
    split at hnone
    · cases hnone
    · next hother => exact (Function.update_of_ne hother _ _).trans (h.unset a ha hnone)
  · rw [← h.totals a ha, State.heirTotal, State.heirTotal, hget a]
    split
    · next hself =>
        subst hself
        rw [hx]
        rfl
    · rfl

theorem HeirBooks.Balanced.fair (h : b.Balanced id heirs w v) : b.Fair id heirs := by
  intro heir hheir x hx
  obtain ⟨hle, htotal, hearned⟩ := h.earned heir hheir x hx
  rw [hearned]
  exact BeneficiaryVestingSchedule.paidFairly_earned htotal hle

theorem HeirBooks.Balanced.received_le (h : b.Balanced id heirs w v) (hheir : heir ∈ heirs) :
    b.received heir ≤ b.world.state.heirTotal id heir := by
  unfold State.heirTotal
  cases hx : b.world.state.get (.beneficiaryVestingSchedule id heir) with
  | none => exact (h.unset heir hheir hx).le
  | some x => exact (h.fair heir hheir x hx).1

/-- Totals that fit into the balance at first stay covered. -/
theorem HeirBooks.Balanced.covered (h : b.Balanced id heirs w v)
    (hfit : ∑ heir ∈ heirs, w.state.heirTotal id heir ≤ v.balance) :
    ∑ heir ∈ heirs, (b.world.state.heirTotal id heir - b.received heir) ≤
      v.balance - ∑ heir ∈ heirs, b.received heir := by
  rw [Finset.sum_sub_distrib, Finset.sum_congr rfl h.totals]
  exact sub_le_sub_right hfit _

/-- An heir whose installments have all unlocked can take the balance. -/
theorem claim_of_rest (hclosed : v.status = .released) (hv : w.state.vault id = some v)
    (hx : w.state.get (.beneficiaryVestingSchedule id heir) = some x) (hopens : x.Opens e.timestamp)
    (hlast : x.unlockedAt e.timestamp = x.numInstallments) (htotal : 0 ≤ x.totalAmount)
    (hmax : x.totalAmount ≤ i128Max) (hpos : 0 < v.balance)
    (hpay : Payable e w.state v.tokenAddress currentContractAddress heir v.balance) :
    ∃ t, claimBeneficiaryVesting id heir e w.state = .ok (v.balance, t) := by
  have hdue : x.due v.balance e.timestamp = v.balance := if_pos hlast
  have hproduct : InI128
      (x.perInstallment * ((x.unlockedAt e.timestamp - x.claimedInstallments : Nat) : Int)) := by
    have hle : x.unlockedAt e.timestamp - x.claimedInstallments ≤ x.numInstallments :=
      (Nat.sub_le _ _).trans (min_le_left _ _)
    have hper : 0 ≤ x.perInstallment := Int.tdiv_nonneg htotal (Int.natCast_nonneg _)
    refine ⟨le_trans (by decide) (Int.mul_nonneg hper (Int.natCast_nonneg _)), ?_⟩
    exact (BeneficiaryVestingSchedule.perInstallment_mul_le htotal hle).trans hmax
  have hclaims : HeirClaims e w.state id heir v x := by
    refine ⟨hv, hclosed, hx, hopens, hproduct, ?_, ?_, ?_, ?_⟩ <;> rw [hdue]
    · exact hpos
    · rw [sub_self]
      exact ⟨by decide, by decide⟩
    · exact hpay
  exact ⟨_, ok_claimBeneficiaryVesting.mpr ⟨v, x, hclaims, hdue.symm, rfl⟩⟩

theorem HeirBooks.Balanced.step {k : Option HeirClaim} {b' : HeirBooks} (h : b.Balanced id heirs w v)
    (hstep : HeirStep id heirs b k b') (hrest : FindsRest id b k) : b'.Balanced id heirs w v := by
  cases hstep with
  | claim hstep hheir hv₁ hx => exact h.claim hstep hheir hv₁ hx fun hlast => hrest _ _ hv₁ hx hlast
  | other _ hvault hsame =>
      refine ⟨hvault.trans h.vault, fun a ha y hy => ?_, fun a ha hnone => ?_, fun a ha => ?_⟩
      · exact h.earned a ha y ((hsame a ha).symm.trans hy)
      · exact h.unset a ha ((hsame a ha).symm.trans hnone)
      · rw [← h.totals a ha, State.heirTotal, State.heirTotal, hsame a ha]

/-- A last claim that leaves the receipts fair has found the rest of the total. -/
theorem findsRest_of_fair {k : Option HeirClaim} {b' : HeirBooks} (h : b.Balanced id heirs w v)
    (hstep : HeirStep id heirs b k b') (hfair : b'.Fair id heirs) : FindsRest id b k := by
  cases hstep with
  | other => trivial
  | @claim w₁ w' e heir v₁ x r hstep hheir hv₁ hx =>
      intro v' x' hv' hx' hlast
      obtain rfl := Option.some.inj (hv₁.symm.trans hv')
      obtain rfl := Option.some.inj (hx.symm.trans hx')
      obtain ⟨v', x', hclaims, -, hget⟩ := heirClaims_of_step hstep
      obtain rfl := Option.some.inj (hclaims.schedule.symm.trans hx)
      have hpaid := (hfair heir hheir _ ((hget heir).trans (if_pos rfl))).2
        (Nat.zero_lt_of_lt hclaims.opens.unclaimed) hlast
      have hdue : x'.due v₁.balance e.timestamp = v₁.balance := if_pos hlast
      have hreceived : r heir + v₁.balance = x'.totalAmount := by
        simpa [hdue, BeneficiaryVestingSchedule.claimedAt] using hpaid
      rw [← (h.earned heir hheir x' hx).2.2]
      change v₁.balance = x'.totalAmount - r heir
      omega

end Runs

/-- The heirs of a vault claim in any order and at any times, from schedules as they are set and
with totals that are not negative, with other steps between that leave the vault and the schedules
alone: if each last claim finds just the rest of its total, no heir receives more than its total and
a completed one just that, and the first claim that finds something else breaks it. Where the
totals fit into the balance, what is outstanding stays covered, so an heir whose installments have
all unlocked gets at least its rest. And a new schedule makes the totals fit exactly if those of
the other heirs add up to nothing. -/
theorem heirs_claim_in_full {w : World} {id : Nat} {v : Vault} {heirs : Finset Address}
    {b : HeirBooks} {ks : List (Option HeirClaim)} (hv : w.state.vault id = some v)
    (hset : ∀ heir ∈ heirs, ∀ x, w.state.get (.beneficiaryVestingSchedule id heir) = some x →
      x.claimedInstallments = 0 ∧ 0 ≤ x.totalAmount)
    (hrun : Run (Guarded (HeirStep id heirs) (FindsRest id)) ⟨w, fun _ => 0⟩ ks b) :
    b.Fair id heirs ∧
      (∀ k b', HeirStep id heirs b k b' → (b'.Fair id heirs ↔ FindsRest id b k)) ∧
      (∑ heir ∈ heirs, w.state.heirTotal id heir ≤ v.balance →
        ∃ v', b.world.state.vault id = some v' ∧
          ∑ heir ∈ heirs, (b.world.state.heirTotal id heir - b.received heir) ≤ v'.balance ∧
          ∀ (e : Env) (heir : Address) (x : BeneficiaryVestingSchedule), heir ∈ heirs →
            b.world.state.get (.beneficiaryVestingSchedule id heir) = some x →
            v'.status = .released → x.Opens e.timestamp →
            x.unlockedAt e.timestamp = x.numInstallments → b.received heir < x.totalAmount →
            x.totalAmount ≤ i128Max →
            Payable e b.world.state v'.tokenAddress currentContractAddress heir v'.balance →
            ∃ t, claimBeneficiaryVesting id heir e b.world.state = .ok (v'.balance, t) ∧
              x.totalAmount - b.received heir ≤ v'.balance) ∧
      ∀ (e : Env) (t : State) (caller heir : Address) (start interval num cliff : Nat)
        (others : Finset Address) (v' : Vault), heir ∉ others → t.vault id = some v' →
        setBeneficiaryVesting id caller heir start interval num cliff e b.world.state =
          .ok ((), t) →
        (∑ a ∈ insert heir others, t.heirTotal id a ≤ v'.balance ↔
          ∑ a ∈ others, b.world.state.heirTotal id a ≤ 0) := by
  have hstart : HeirBooks.Balanced ⟨w, fun _ => 0⟩ id heirs w v := by
    refine ⟨?_, fun heir hheir x hx => ?_, fun _ _ _ => rfl, fun _ _ => rfl⟩
    · simpa [Vault.withBalance] using hv
    · obtain ⟨hnone, htotal⟩ := hset heir hheir x hx
      exact ⟨hnone ▸ Nat.zero_le _, htotal, by simp [BeneficiaryVestingSchedule.earned, hnone]⟩
  have hbalanced : b.Balanced id heirs w v :=
    hrun.invariant (I := fun b => b.Balanced id heirs w v) hstart
      fun _ _ _ h ⟨hstep, hrest⟩ => h.step hstep hrest
  refine ⟨hbalanced.fair, fun k b' hstep => ?_, fun hfit => ?_, ?_⟩
  · exact ⟨findsRest_of_fair hbalanced hstep, fun hrest => (hbalanced.step hstep hrest).fair⟩
  · have hcovered := hbalanced.covered hfit
    refine ⟨_, hbalanced.vault, hcovered, ?_⟩
    intro e heir x hheir hx hreleased hopens hlast hless hmax hpay
    have hrest : x.totalAmount - b.received heir ≤
        v.balance - ∑ a ∈ heirs, b.received a := by
      refine le_trans ?_ hcovered
      have hterm := Finset.single_le_sum (f := fun a =>
        b.world.state.heirTotal id a - b.received a)
          (fun a ha => sub_nonneg.mpr (hbalanced.received_le ha)) hheir
      simpa [State.heirTotal, hx] using hterm
    obtain ⟨t, ht⟩ := claim_of_rest hreleased hbalanced.vault hx hopens hlast
      (hbalanced.earned heir hheir x hx).2.1 hmax (lt_of_lt_of_le (sub_pos.mpr hless) hrest) hpay
    exact ⟨t, ht, hrest⟩
  · exact fun _ _ _ _ _ _ _ _ _ _ hheir hvault h => totals_fit_iff h hvault hheir

/-- Two heirs of 500 and 1000 in two installments each. The second claims one of its installments,
and the first then both of its own. -/
theorem heirs_paid_in_turn : ∃ (w : World) (b : HeirBooks), Reachable w ∧
    w.state.heirTotal 1 ⟨2⟩ = 500 ∧ w.state.heirTotal 1 ⟨3⟩ = 1000 ∧ b.Fair 1 {⟨2⟩, ⟨3⟩} ∧
      b.received ⟨2⟩ = 500 ∧ b.received ⟨3⟩ = 500 ∧
        ∃ x, b.world.state.get (.beneficiaryVestingSchedule 1 ⟨2⟩) = some x ∧
          x.claimedInstallments = x.numInstallments := by
  have hplay : (play (initialised ⟨8⟩ ⟨9⟩)
      [opensVault 1000, paysIn 500,
        (signedBy [⟨1⟩] 0, .vesting (.setBeneficiaryVesting 1 ⟨1⟩ ⟨2⟩ 0 5000 2 0)),
        paysIn 500,
        (signedBy [⟨1⟩] 0, .vesting (.setBeneficiaryVesting 1 ⟨1⟩ ⟨3⟩ 0 5000 2 0)),
        (signedBy [] 2000, .release (.triggerRelease 1))]).any (fun w =>
      (play w [(signedBy [] 2000, .vesting (.claimBeneficiaryVesting 1 ⟨3⟩))]).any fun u₁ =>
      (play u₁ [(signedBy [] 2000, .vesting (.claimBeneficiaryVesting 1 ⟨2⟩))]).any fun u₂ =>
      (play u₂ [(signedBy [] 5000, .vesting (.claimBeneficiaryVesting 1 ⟨2⟩))]).any fun w' =>
        (w.state.vault 1).any fun v => (u₁.state.vault 1).any fun v₁ =>
        (u₂.state.vault 1).any fun v₂ =>
        (w'.state.get (.beneficiaryVestingSchedule 1 ⟨2⟩)).any fun x' =>
          decide (v.balance = 1000 ∧ v₁.balance = 500 ∧ v₂.balance = 250 ∧
            w.state.get (.beneficiaryVestingSchedule 1 ⟨2⟩) =
              some ⟨⟨2⟩, 1, 0, 5000, 2, 0, 500, 0⟩ ∧
            w.state.get (.beneficiaryVestingSchedule 1 ⟨3⟩) =
              some ⟨⟨3⟩, 1, 0, 5000, 2, 0, 1000, 0⟩) &&
          decide (u₁.state.get (.beneficiaryVestingSchedule 1 ⟨2⟩) =
              some ⟨⟨2⟩, 1, 0, 5000, 2, 0, 500, 0⟩ ∧
            u₂.state.get (.beneficiaryVestingSchedule 1 ⟨2⟩) =
              some ⟨⟨2⟩, 1, 0, 5000, 2, 1, 500, 0⟩ ∧
            x'.claimedInstallments = x'.numInstallments)) = true := by
    decide +kernel
  obtain ⟨w, hw, hplay⟩ := (Option.any_eq_true _ _).mp hplay
  obtain ⟨u₁, hu₁, hplay⟩ := (Option.any_eq_true _ _).mp hplay
  obtain ⟨u₂, hu₂, hplay⟩ := (Option.any_eq_true _ _).mp hplay
  obtain ⟨w', hw', hchecks⟩ := (Option.any_eq_true _ _).mp hplay
  simp only [Bool.and_eq_true, Option.any_eq_true, decide_eq_true_eq] at hchecks
  obtain ⟨v, hv, v₁, hv₁, v₂, hv₂, x', hx', ⟨hbalance, hbalance₁, hbalance₂, hx, hy⟩, hx₁, hx₂,
    hdone⟩ := hchecks
  have hthree : HeirStep 1 {⟨2⟩, ⟨3⟩} ⟨w, fun _ => 0⟩ (some ⟨⟨3⟩, 2000⟩) ⟨u₁, _⟩ :=
    .claim (step_of_play hu₁) (by simp) hv hy
  have htwo := fun r : Address → Int => (.claim (step_of_play hu₂) (by simp) hv₁ hx₁ :
    HeirStep 1 {⟨2⟩, ⟨3⟩} ⟨u₁, r⟩ (some ⟨⟨2⟩, 2000⟩) ⟨u₂, _⟩)
  have hlast := fun r : Address → Int => (.claim (step_of_play hw') (by simp) hv₂ hx₂ :
    HeirStep 1 {⟨2⟩, ⟨3⟩} ⟨u₂, r⟩ (some ⟨⟨2⟩, 5000⟩) ⟨w', _⟩)
  have hopen : FindsRest 1 ⟨w, fun _ => 0⟩ (some ⟨⟨3⟩, 2000⟩) := by
    intro v' z hv' hz h
    obtain rfl := Option.some.inj (hy.symm.trans hz)
    exact absurd h (by decide)
  have hopen₁ (r : Address → Int) : FindsRest 1 ⟨u₁, r⟩ (some ⟨⟨2⟩, 2000⟩) := by
    intro v' z hv' hz h
    obtain rfl := Option.some.inj (hx₁.symm.trans hz)
    exact absurd h (by decide)
  have hrest (r : Address → Int) : FindsRest 1 ⟨u₂, r⟩ (some ⟨⟨2⟩, 5000⟩) := by
    intro v' z hv' hz _
    obtain rfl := Option.some.inj (hv₂.symm.trans hv')
    obtain rfl := Option.some.inj (hx₂.symm.trans hz)
    exact hbalance₂
  have hrun : Run (Guarded (HeirStep 1 {⟨2⟩, ⟨3⟩}) (FindsRest 1)) ⟨w, fun _ => 0⟩ _ ⟨w', _⟩ :=
    .next (.next (.next .start ⟨hthree, hopen⟩) ⟨htwo _, hopen₁ _⟩) ⟨hlast _, hrest _⟩
  have hset : ∀ heir ∈ ({⟨2⟩, ⟨3⟩} : Finset Address), ∀ x,
      w.state.get (.beneficiaryVestingSchedule 1 heir) = some x →
        x.claimedInstallments = 0 ∧ 0 ≤ x.totalAmount := by
    intro heir hmem z hz
    rcases Finset.mem_insert.mp hmem with rfl | hmem
    · obtain rfl := Option.some.inj (hx.symm.trans hz)
      exact ⟨rfl, by decide⟩
    · obtain rfl := Finset.mem_singleton.mp hmem
      obtain rfl := Option.some.inj (hy.symm.trans hz)
      exact ⟨rfl, by decide⟩
  obtain ⟨hfair, -⟩ := heirs_claim_in_full hv hset hrun
  refine ⟨w, _, reachable_of_play hw, ?_, ?_, hfair, ?_, ?_, x', hx', hdone⟩
  · rw [State.heirTotal, hx]
    rfl
  · rw [State.heirTotal, hy]
    rfl
  · rw [hbalance, hbalance₁, hbalance₂]
    rfl
  · rw [hbalance, hbalance₁, hbalance₂]
    rfl

/-- The totals of 2 and 3 are 500 and 1000, the balance is 1000, and 2 takes all of it. -/
theorem first_heir_takes_all :
    (¬ ∀ (w : World) (b : HeirBooks) (ks : List (Option HeirClaim)) (id : Nat) (v : Vault)
      (heirs : Finset Address), Reachable w → w.state.vault id = some v →
      (∀ heir ∈ heirs, ∀ x, w.state.get (.beneficiaryVestingSchedule id heir) = some x →
        x.claimedInstallments = 0 ∧ 0 ≤ x.totalAmount) →
      Run (HeirStep id heirs) ⟨w, fun _ => 0⟩ ks b →
      ∀ heir ∈ heirs, b.received heir ≤ w.state.heirTotal id heir) ∧
    ¬ ∀ (w : World) (id : Nat) (v : Vault) (heirs : Finset Address), Reachable w →
      w.state.vault id = some v → v.status = .released →
      ∑ heir ∈ heirs, w.state.heirTotal id heir ≤ v.balance := by
  have hplay : (play (initialised ⟨8⟩ ⟨9⟩)
      [opensVault 1000, paysIn 500,
        (signedBy [⟨1⟩] 0, .vesting (.setBeneficiaryVesting 1 ⟨1⟩ ⟨2⟩ 0 10 1 0)),
        paysIn 500,
        (signedBy [⟨1⟩] 0, .vesting (.setBeneficiaryVesting 1 ⟨1⟩ ⟨3⟩ 0 10 1 0)),
        (signedBy [] 2000, .release (.triggerRelease 1))]).any (fun w =>
      (play w [(signedBy [] 2000, .vesting (.claimBeneficiaryVesting 1 ⟨2⟩))]).any fun _ =>
        (w.state.vault 1).any fun v => decide (v.balance = 1000 ∧ v.status = .released ∧
          w.state.get (.beneficiaryVestingSchedule 1 ⟨2⟩) =
            some ⟨⟨2⟩, 1, 0, 10, 1, 0, 500, 0⟩ ∧
          w.state.heirTotal 1 ⟨3⟩ = 1000)) = true := by
    decide +kernel
  obtain ⟨w, hw, hplay⟩ := (Option.any_eq_true _ _).mp hplay
  obtain ⟨w', hw', hchecks⟩ := (Option.any_eq_true _ _).mp hplay
  simp only [Option.any_eq_true, decide_eq_true_eq] at hchecks
  obtain ⟨v, hv, hbalance, hreleased, hx, hother⟩ := hchecks
  have hown : w.state.heirTotal 1 ⟨2⟩ = 500 := by
    rw [State.heirTotal, hx]
    rfl
  constructor
  · intro h
    have hheir : (⟨2⟩ : Address) ∈ ({⟨2⟩} : Finset Address) := Finset.mem_singleton_self _
    have hstep : HeirStep 1 {⟨2⟩} ⟨w, fun _ => 0⟩ _ ⟨w', _⟩ := .claim (step_of_play hw') hheir hv hx
    have hle := h w _ _ 1 v {⟨2⟩} (reachable_of_play hw) hv ?_ (.next .start hstep) _ hheir
    · have hreceived : BeneficiaryVestingSchedule.due ⟨⟨2⟩, 1, 0, 10, 1, 0, 500, 0⟩ v.balance
          (signedBy [] 2000).timestamp ≤ 500 := by
        simpa [hown] using hle
      rw [hbalance] at hreceived
      exact absurd hreceived (by decide)
    · intro heir hmem y hy
      obtain rfl := Finset.mem_singleton.mp hmem
      obtain rfl := Option.some.inj (hx.symm.trans hy)
      exact ⟨rfl, by decide⟩
  · intro h
    have hle := h w 1 v {⟨2⟩, ⟨3⟩} (reachable_of_play hw) hv hreleased
    rw [Finset.sum_pair (by decide), hown, hother, hbalance] at hle
    exact absurd hle (by decide)

end Heirloom
