import Heirloom.Milestones

/-!
# What the vesting claims do

One specification for each operation that pays out of a vesting vault: who is
paid, how the balance changes, and that on well-formed schedules
(`State.VestingSound`) no installment is negative. The last sections have the
frames of all vesting calls and what they make of a milestone schedule.
-/

namespace Heirloom

open Transaction

/-! ## Well-formed schedules -/

/-- The schedules of vault `id` are well formed. -/
structure State.VestingSound (s : State) (id : Nat) : Prop where
  total : ∀ i x, s.get (.vestingSchedule id i) = some x → 0 ≤ x.totalAmount
  penalty : ∀ p, s.get (.vestingPenalty id 0) = some p → p.penaltyBps ≤ 10000

/-! ## What the claims do -/

section Claims

variable {e : Env} {s : State} {id : Nat} {v : Vault} {schedule : VestingSchedule}

theorem perInstallment_nonneg (h : 0 ≤ schedule.totalAmount) :
    0 ≤ schedule.totalAmount.tdiv schedule.numInstallments :=
  Int.tdiv_nonneg h (Int.natCast_nonneg _)

theorem installmentAmount_nonneg {unlocked claimable : Nat} {x : Int}
    (h : installmentAmount v schedule unlocked claimable e s = .ok (x, s)) (hb : 0 ≤ v.balance)
    (ht : 0 ≤ schedule.totalAmount) : 0 ≤ x := by
  simp only [installmentAmount, Tx.ok_bind, ok_divI, Tx.ok_ite, Tx.ok_pure, ok_i128] at h
  obtain ⟨_, _, ⟨_, rfl, rfl⟩, ⟨_, rfl, _⟩ | ⟨_, _, rfl, _⟩⟩ := h
  · exact hb
  · exact Int.mul_nonneg (perInstallment_nonneg ht) (by omega)

theorem penalizedAmount_nonneg {penalty : VestingPenaltyConfig} {unlocked claimable : Nat}
    {base x : Int}
    (h : penalizedAmount v schedule penalty unlocked claimable base e s = .ok (x, s))
    (hb : 0 ≤ v.balance) (ht : 0 ≤ schedule.totalAmount) (hbase : 0 ≤ base)
    (hpenalty : penalty.penaltyBps ≤ 10000) : 0 ≤ x := by
  simp only [penalizedAmount, Tx.ok_bind, ok_timestamp, ok_divI, Tx.ok_ite, Tx.ok_pure,
    ok_i128] at h
  obtain ⟨_, _, ⟨rfl, rfl⟩, ⟨_, _, _, ⟨_, rfl, rfl⟩, _, _, ⟨_, rfl, rfl⟩, _, _, ⟨_, rfl, rfl⟩,
    _, _, ⟨_, rfl, rfl⟩, _, _, ⟨_, rfl, rfl⟩, _, _, ⟨_, rfl, rfl⟩, rfl, _⟩ | ⟨_, rfl, _⟩⟩ := h
  · generalize (schedule.claimRange unlocked).countP _ = late
    have hper := perInstallment_nonneg ht
    generalize schedule.totalAmount.tdiv schedule.numInstallments = per at hper ⊢
    have hon : 0 ≤ per * ((claimable - late : Nat) : Int) := Int.mul_nonneg hper (by omega)
    have hlate : 0 ≤ per * (late : Int) := Int.mul_nonneg hper (by omega)
    have hcut : (per * (late : Int) * penalty.penaltyBps).tdiv 10000 ≤ per * late :=
      (percentage_bounds hlate hpenalty).2
    have hgross : 0 ≤ per * ((claimable - late : Nat) : Int) + per * (late : Int) -
        (per * (late : Int) * penalty.penaltyBps).tdiv 10000 := by omega
    split
    · exact le_min hgross hb
    · exact hgross
  · exact hbase

/-- A claim of `amount`: the heirs of the released vault are paid by the split, and the
balance goes down by the amount. Besides the vault, the claim writes to the given areas. -/
structure Claims (areas : List Area) (id : Nat) (v : Vault) (amount : Int) (s t : State) :
    Prop where
  transacts : Transacts id v (v.withBalance (v.balance - amount)) (v.heirsLog amount) s t
  released : v.status = .released
  covered : amount ≤ v.balance
  frame : Frame ⟨[id], [.balance, .funds], areas⟩ s t

/-- A claim of installments. On well-formed schedules the amount is not negative. -/
structure ClaimsInstallments (id : Nat) (v : Vault) (amount : Int) (s t : State) : Prop
    extends Claims [.schedules, .rollover] id v amount s t where
  nonneg : 0 ≤ v.balance → s.VestingSound id → 0 ≤ amount

theorem claims_of_payClaim {amount : Int} {claimed : Nat} {t : State} (hv : s.vault id = some v)
    (hreleased : v.status = .released) (hget : ∀ i, t.vault i = s.vault i) (hledger : t.ledger = s.ledger)
    (hframe : Frame ⟨[id], [], [.rollover]⟩ s t) (hle : amount ≤ v.balance)
    (hnonneg : 0 ≤ v.balance → s.VestingSound id → 0 ≤ amount)
    {Q : Unit → State → Prop} (h : ∀ u, ClaimsInstallments id v amount s u → Q () u) :
    wp (payClaim id v schedule amount claimed) Q e t := by
  have hvt : t.vault id = some v := (hget id).trans hv
  have hwide : Frame ⟨[id], [.balance, .funds], [.schedules, .rollover]⟩ s t :=
    hframe.mono (fun _ h => h) (by simp) (by simp)
  refine wp_payClaim fun hfair => h _ ⟨⟨?_, hreleased, hle, hwide.trans (afterClaim_frame hvt)⟩, hnonneg⟩
  exact (afterClaim_transacts hvt hfair).congr_left hget hledger

theorem claimVestedInstallment_spec :
    wp (claimVestedInstallment id) (fun amount t => ∃ v, ClaimsInstallments id v amount s t) e s := by
  simp only [claimVestedInstallment, Tx.wp_bind, wp_assertNotPaused, wp_loadVault, wp_require,
    wp_loadClaimSchedule, wp_assertCliffReached, wp_unlockedForClaim, wp_storageGet,
    wp_installmentAmount]
  intro _ v hv hreleased schedule hschedule _ _ _ _ unlocked _ _ own hown
  refine wp_addRollover fun base t hbase hget hledger hframe => ?_
  have hvaults : ∀ i, t.vault i = s.vault i := fun i => hget (.vault i) (by simp)
  have hpenalty : t.get (.vestingPenalty id 0) = s.get (.vestingPenalty id 0) := hget _ (by simp)
  -- whatever the penalty, the amount is paid by the same split
  have hpay : ∀ amount, (0 ≤ v.balance → s.VestingSound id → 0 ≤ amount) →
      wp (require (amount ≤ v.balance) .insufficientBalance)
        (fun _ t => wp (payClaim id v schedule amount unlocked)
          (fun _ t => wp (onlyIf (amount < base) do let _ ← i128 (base - amount))
            (fun _ t => ∃ v, ClaimsInstallments id v amount s t) e t) e t) e t := by
    intro amount hnonneg
    simp only [wp_require]
    refine fun hle => claims_of_payClaim hv hreleased hvaults hledger hframe hle hnonneg fun u hu => ?_
    simp only [Tx.wp_onlyIf, Tx.wp_bind, wp_i128, Tx.wp_pure]
    exact ⟨fun _ _ => ⟨v, hu⟩, fun _ => ⟨v, hu⟩⟩
  have hbase' : 0 ≤ v.balance → s.VestingSound id → 0 ≤ base := fun hb hs =>
    (installmentAmount_nonneg hown hb (hs.total 0 _ hschedule)).trans hbase
  simp only [Tx.wp_ifSomeElse, wp_penalizedAmount, Tx.wp_pure]
  refine ⟨fun p hp amount hamount => ?_, fun _ => ?_⟩
  · simpa using hpay amount fun hb hs => penalizedAmount_nonneg hamount hb
      (hs.total 0 _ hschedule) (hbase' hb hs) (hs.penalty p (hpenalty ▸ hp))
  · simpa using hpay base hbase'

theorem claimCatchupVesting_spec :
    wp (claimCatchupVesting id) (fun amount t => ∃ v, ClaimsInstallments id v amount s t) e s := by
  simp only [claimCatchupVesting, Tx.wp_bind, wp_assertNotPaused, wp_loadVault, wp_require,
    wp_storageGet, Tx.wp_fromSome, wp_loadClaimSchedule, wp_assertCliffReached, wp_timestamp,
    wp_unlockedInstallments, wp_u32, wp_installmentAmount]
  intro _ v hv hreleased config _ _ schedule hschedule _ _ _ _ unlocked _ _ _ amount hamount hle
  refine claims_of_payClaim hv hreleased (fun _ => rfl) rfl .refl hle (fun hb hs => ?_) fun u hu =>
    Tx.wp_pure.mpr ⟨v, hu⟩
  exact installmentAmount_nonneg hamount hb (hs.total 0 _ hschedule)

theorem wp_reportBonusShares {total : Int} {bonus : Nat} {onTime : Bool}
    {Q : Unit → State → Prop} (h : Q () s) :
    wp (reportBonusShares v total bonus onTime) Q e s := by
  simp only [reportBonusShares, Tx.wp_onlyIf]
  refine ⟨fun _ => ?_, fun _ => h⟩
  refine Tx.wp_mono (Tx.ReadOnly.forEach (fun _ _ _ => by simp) e s) ?_
  rintro _ t rfl
  exact h

theorem claimWithBonus_spec :
    wp (claimWithBonus id) (fun amount t => ∃ v, ClaimsInstallments id v amount s t) e s := by
  simp only [claimWithBonus, Tx.wp_bind, wp_assertNotPaused, wp_loadVault, wp_require,
    wp_storageGet, Tx.wp_fromSome, wp_loadClaimSchedule, wp_assertCliffReached, wp_timestamp,
    wp_unlockedInstallments, wp_installmentAmount, wp_allOnTime, wp_i128, Tx.wp_ite]
  intro _ v hv hreleased config _ schedule hschedule _ _ _ _ unlocked _ _ base hbase onTime _ _ _
  have hbase' : 0 ≤ v.balance → s.VestingSound id → 0 ≤ base := fun hb hs =>
    installmentAmount_nonneg hbase hb (hs.total 0 _ hschedule)
  refine ⟨fun _ => ?_, fun hle => ?_⟩
  · -- the vault cannot cover the bonus
    refine claims_of_payClaim hv hreleased (fun _ => rfl) rfl .refl (min_le_right _ _)
      (fun hb hs => le_min (hbase' hb hs) hb) fun u hu => ?_
    exact Tx.wp_pure.mpr ⟨v, hu⟩
  · refine claims_of_payClaim hv hreleased (fun _ => rfl) rfl .refl (not_lt.mp hle) (fun hb hs => ?_)
      fun u hu => ?_
    · have hbonus : 0 ≤ (if onTime = true then base * (config.bonusBps : Int) else 0).tdiv 10000 := by
        split
        · exact Split.part_nonneg (hbase' hb hs) (by decide)
        · simp
      have := hbase' hb hs
      omega
    · exact wp_reportBonusShares (Tx.wp_pure.mpr ⟨v, hu⟩)

theorem claimMilestoneInstallments_spec :
    wp (claimMilestoneInstallments id) (fun amount t => ∃ v ms, Claims [.milestones] id v amount s t ∧
      s.get (.milestoneVestingSchedule id) = some ms ∧ amount = ms.due ∧
        ms.milestones.any (·.claimable) = true ∧
          t.get (.milestoneVestingSchedule id) = some (ms.afterClaim amount)) e s := by
  simp only [claimMilestoneInstallments, Tx.wp_bind, wp_assertNotPaused, wp_loadVault, wp_require,
    wp_storageGet, Tx.wp_fromSome, wp_milestoneClaim]
  intro _ v hv hreleased ms hms _ amount hamount hany hle
  obtain rfl := milestoneClaim_eq hamount
  refine wp_payHeirs fun hfair => ?_
  simp only [wp_i128, wp_saveVault, wp_storageSet, Tx.wp_pure]
  intro _ _
  refine ⟨v, ms, ⟨?_, hreleased, hle, ?_⟩, hms, rfl, hany, by
    simp [MilestoneVestingSchedule.afterClaim]⟩
  · exact (Transacts.put_iff (by simp)).mpr (.save hv (fun _ => rfl) rfl hfair rfl)
  · simp [hv, Vault.agreeOff_iff]

/-- A payment of `amount` out of the balance to one address. -/
structure PaysOut (id : Nat) (v : Vault) (dest : Address) (amount : Int) (s t : State) : Prop where
  transacts : Transacts id v (v.withBalance (v.balance - amount))
    [outgoing v.tokenAddress dest amount] s t
  nonneg : 0 ≤ amount
  covered : amount ≤ v.balance

theorem cancelVestingSchedule_spec {i : Nat} {caller : Address} :
    wp (cancelVestingSchedule id i caller) (fun _ t => ∃ v schedule x,
      Transacts id v (v.withBalance (clampI128 (v.balance + x))) [] s t ∧ caller = v.owner ∧
        e.authorized caller = true ∧ s.get (.vestingSchedule id i) = some schedule ∧
          schedule.unclaimed e s = .ok (x, s)) e s := by
  simp only [cancelVestingSchedule, Tx.wp_bind, wp_requireAuth, wp_loadVault, wp_require,
    wp_storageGet, Tx.wp_fromSome, wp_unclaimed, wp_saveVault, wp_storageRemove]
  intro hauth v hv howner schedule hschedule x hx
  refine ⟨v, schedule, x, ?_, howner, hauth, hschedule, hx⟩
  exact (Transacts.erase_iff (by simp)).mpr (.save hv (fun _ => rfl) rfl fair_nil rfl)

theorem finalizeVestingClaim_spec :
    wp (finalizeVestingClaim id) (fun amount t => ∃ v pending,
      PaysOut id v pending.beneficiary amount s t ∧
        s.get (.vestingPendingClaim id 0) = some pending ∧ amount = pending.amount) e s := by
  simp only [finalizeVestingClaim, Tx.wp_bind, wp_assertNotPaused, wp_storageGet, Tx.wp_fromSome,
    wp_timestamp, wp_require, wp_loadVault, wp_transfer, wp_i128, wp_saveVault, wp_storageRemove,
    Tx.wp_pure]
  intro _ pending hpending _ v hv hle hpay _
  refine ⟨v, pending, ⟨(Transacts.erase_iff (by simp)).mpr ?_, hpay.1, hle⟩, hpending, rfl⟩
  exact .save hv (fun _ => rfl) rfl (fair_outgoing hpay.1) rfl

theorem closeSchedules_spec {count : Nat} :
    wp (closeSchedules id count) (fun _ t => (∀ i, t.vault i = s.vault i) ∧ t.ledger = s.ledger ∧
      Frame ⟨[id], [], [.schedules]⟩ s t) e s := by
  refine Tx.wp_forEach (fun i _ t ht => ?_) ⟨fun _ => rfl, rfl, .refl⟩
  simp [ht]

theorem clawbackUnvested_spec {caller : Address} :
    wp (clawbackUnvested id caller) (fun amount t => ∃ v, PaysOut id v v.owner amount s t ∧
      Frame ⟨[id], [.balance, .funds], [.schedules]⟩ s t) e s := by
  simp only [clawbackUnvested, Tx.wp_bind, wp_assertNotPaused, wp_requireAuth, wp_loadVault,
    wp_require, wp_storageGet, wp_totalUnvested, wp_transfer, wp_i128]
  intro _ _ v hv _ _ _ unvested _ _ hle hpay _
  refine Tx.wp_mono closeSchedules_spec ?_
  rintro _ t ⟨hvaults, hledger, hframe⟩
  simp only [wp_saveVault, Tx.wp_pure]
  refine ⟨v, ⟨.save hv hvaults hledger (fair_outgoing hpay.1) rfl, hpay.1, hle⟩, ?_⟩
  have hwide : Frame ⟨[id], [.balance, .funds], [.schedules]⟩ s t :=
    .trans (by simp) (hframe.mono (fun _ h => h) (by simp) (fun _ h => h))
  exact hwide.save (by simp) ((hvaults id).trans hv) (by simp [Vault.agreeOff_iff])

theorem claimBeneficiaryVesting_spec {heir : Address} :
    wp (claimBeneficiaryVesting id heir)
      (fun amount t => ∃ v, PaysOut id v heir amount s t) e s := by
  simp only [claimBeneficiaryVesting, Tx.wp_bind, wp_loadVault, wp_require, wp_storageGet,
    Tx.wp_fromSome, wp_timestamp, wp_u64, wp_unlockedInstallments, wp_divI, wp_i128, wp_saveVault,
    wp_storageSet, wp_transfer, Tx.wp_pure]
  intro v hv _ schedule _ _ _ available _ _ _ _ hamount _ hpay
  generalize (if available = schedule.numInstallments then v.balance else _) = amount at *
  refine ⟨v, ⟨hv, fun i => ?_, rfl, rfl, fair_outgoing hpay.1⟩, hpay.1, hamount.2⟩
  simp

/-! ## Staggered claims -/

theorem staggerUnlocked_le {entry : VestingStaggerEntry} {caller : Address} {n : Nat} {t : State}
    (h : staggerUnlocked caller entry e s = .ok (n, t)) :
    t = s ∧ (n = entry.claimedInstallments ∨ n ≤ entry.numInstallments) := by
  simp only [staggerUnlocked, Tx.ok_bind, ok_timestamp, Tx.ok_ite, unlockedInstallments, ok_divU,
    ok_u64, Tx.ok_pure] at h
  obtain ⟨_, _, ⟨rfl, rfl⟩, ⟨_, _, _, ⟨_, _, rfl⟩, _, _, ⟨_, _, rfl⟩, rfl, rfl⟩ | ⟨_, rfl, rfl⟩⟩ := h
  · exact ⟨rfl, .inr (min_le_right _ _)⟩
  · exact ⟨rfl, .inl rfl⟩

theorem staggerAmount_le {share amount : Int} {entry : VestingStaggerEntry} {n claimable : Nat}
    {t : State} (h : staggerAmount share entry n claimable e s = .ok (amount, t))
    (hshare : 0 ≤ share) (hle : claimable ≤ entry.numInstallments) : t = s ∧ amount ≤ share := by
  simp only [staggerAmount, Tx.ok_bind, ok_divI, Tx.ok_ite, Tx.ok_pure, ok_i128] at h
  obtain ⟨_, _, ⟨hn, rfl, rfl⟩, ⟨_, rfl, rfl⟩ | ⟨_, _, rfl, rfl⟩⟩ := h
  · exact ⟨rfl, le_rfl⟩
  · refine ⟨rfl, ?_⟩
    have hper : 0 ≤ share.tdiv entry.numInstallments :=
      Int.tdiv_nonneg hshare (Int.natCast_nonneg _)
    calc share.tdiv entry.numInstallments * (claimable : Int)
        ≤ share.tdiv entry.numInstallments * entry.numInstallments :=
          Int.mul_le_mul_of_nonneg_left (by exact_mod_cast hle) hper
      _ ≤ share := by
          rw [Int.tdiv_eq_ediv_of_nonneg hshare]
          exact Int.ediv_mul_le _ hn

/-- What has happened after some of the entries of a staggered claim. -/
structure StaggerInvariant (v : Vault) (s : State) (sound : Prop) (log : Log)
    (acc : StaggerProgress) (t : State) : Prop where
  state : t = s.transferAll log
  fair : Fair v.tokenAddress log
  flow : flow log = -acc.total
  balance : acc.balance = v.balance - acc.total
  nonneg : 0 ≤ v.balance → sound → 0 ≤ acc.balance

theorem readOnly_staggerAmount {share : Int} {entry : VestingStaggerEntry} {n claimable : Nat} :
    Tx.ReadOnly (staggerAmount share entry n claimable) :=
  fun _ _ => by simp [staggerAmount]

theorem claimStaggerEntry_spec {caller : Address} {sound : Prop} {entry : VestingStaggerEntry}
    {log : Log} {acc : StaggerProgress} {t : State} (h : StaggerInvariant v s sound log acc t)
    (hbps : sound → entry.bps ≤ 10000) :
    wp (claimStaggerEntry v caller acc entry)
      (fun acc' u => ∃ log', StaggerInvariant v s sound log' acc' u) e t := by
  have hskip : StaggerInvariant v s sound log
      { acc with entries := acc.entries ++ [entry] } t := ⟨h.1, h.2, h.3, h.4, h.5⟩
  simp only [claimStaggerEntry, Tx.wp_bind]
  intro unlocked _ hunlocked
  obtain ⟨rfl, hle⟩ := staggerUnlocked_le hunlocked
  simp only [Tx.wp_ite, Tx.wp_pure, Tx.wp_bind, wp_i128]
  refine ⟨fun _ => ⟨log, hskip⟩, fun hclaimable _ => ?_⟩
  intro amount _ hamount
  obtain rfl := readOnly_staggerAmount e _ _ _ hamount
  simp only [wp_transfer]
  refine ⟨fun hpos hpay _ _ => ?_, fun _ => ⟨log, hskip⟩⟩
  refine ⟨log ++ [outgoing v.tokenAddress caller amount], ?_, ?_, ?_, ?_, fun hb hs => ?_⟩
  · rw [h.state, State.pay_transferAll]
  · exact h.fair.append (fair_outgoing hpay.1)
  · rw [flow_append, flow_outgoing, h.flow]
    dsimp only
    omega
  · have := h.balance
    dsimp only
    omega
  · have hacc := h.nonneg hb hs
    obtain ⟨hshare, hpart⟩ := percentage_bounds hacc (hbps hs)
    have := (staggerAmount_le hamount hshare (by omega)).2
    dsimp only
    omega

theorem claimStaggeredVesting_spec {caller : Address} :
    wp (claimStaggeredVesting id caller) (fun amount t => ∃ v log,
      Transacts id v (v.withBalance (v.balance - amount)) log s t ∧ v.status = .released ∧
        flow log = -amount ∧
        (0 ≤ v.balance → (∀ x, s.get (.vestingStagger id) = some x → ∀ entry ∈ x,
          entry.bps ≤ 10000) → 0 ≤ v.balance - amount) ∧
        Frame ⟨[id], [.balance, .funds], [.vesting]⟩ s t) e s := by
  simp only [claimStaggeredVesting, Tx.wp_bind, wp_assertNotPaused, wp_requireAuth, wp_loadVault,
    wp_require, wp_storageGet, Tx.wp_fromSome]
  intro _ _ v hv hreleased entries hentries
  refine Tx.wp_mono (Tx.wp_foldEach
    (I := fun acc t => ∃ log, StaggerInvariant v s (∀ x, s.get (.vestingStagger id) = some x →
      ∀ entry ∈ x, entry.bps ≤ 10000) log acc t)
    (fun entry hentry acc t ht => ?_)
    ⟨[], by simp, fair_nil, by simp, by simp, fun hb _ => hb⟩) ?_
  · obtain ⟨log, hlog⟩ := ht
    exact claimStaggerEntry_spec hlog fun hs => hs entries hentries entry hentry
  · rintro acc t ⟨log, hlog⟩
    simp only [wp_saveVault, wp_storageSet, Tx.wp_pure]
    intro _ _
    obtain rfl := hlog.state
    refine ⟨v, log, ?_, hreleased, hlog.flow, fun hb hs => hlog.balance ▸ hlog.nonneg hb hs, ?_⟩
    · rw [← hlog.balance]
      exact (Transacts.put_iff (by simp)).mpr (.save hv (fun _ => rfl) rfl hlog.fair rfl)
    · simp [hv, Vault.agreeOff_iff]

/-- A vault that has staked nothing earns nothing. -/
theorem distributeYield_spec
    (h : ∀ x, s.get (.tokenStaking id) = some x → x.stakedAmount = 0) :
    wp (distributeYield id) (fun _ t => t = s) e s := by
  simp only [distributeYield, Tx.wp_bind, wp_loadVault, wp_storageGet, Tx.wp_fromSome, wp_require,
    wp_timestamp, Tx.wp_onlyIf]
  intro v _ staking hstaking config _ _
  have hyield : staking.yieldAmount e.timestamp = 0 := by
    simp [TokenStaking.yieldAmount, h staking hstaking]
  exact ⟨fun hpos => by omega, fun _ => trivial⟩

end Claims

/-! ## Frames -/

def VestingCall.footprint : VestingCall → Footprint
  | .setVestingSchedule v _ _ _ _ _ _ => ⟨[v], [], [.schedules]⟩
  | .cancelVestingSchedule v _ _ => ⟨[v], [.balance], [.schedules]⟩
  | .initiateVestingClaim v _ | .reverseVestingClaim v _ => ⟨[v], [], [.schedules, .vesting]⟩
  | .claimVestedInstallment v | .claimCatchupVesting v | .claimWithBonus v =>
      ⟨[v], [.balance, .funds], [.schedules, .rollover]⟩
  | .clawbackUnvested v _ => ⟨[v], [.balance, .funds], [.schedules]⟩
  | .claimMilestoneInstallments v => ⟨[v], [.balance, .funds], [.milestones]⟩
  | .setMilestoneVesting v _ _ _ | .pauseMilestoneVesting v _ | .resumeMilestoneVesting v _
  | .adjustMilestoneTargets v _ _ | .emergencyFulfillMilestones v _ _
  | .reportMilestoneProgress v _ _ => ⟨[v], [], [.milestones]⟩
  | .finalizeVestingClaim v | .claimStaggeredVesting v _ | .claimBeneficiaryVesting v _
  | .distributeYield v => ⟨[v], [.balance, .funds], [.vesting]⟩
  | .setVestingForfeiture v _ _ => ⟨[v], [], [.forfeiture]⟩
  | .setVestingPenalty v _ _ _ => ⟨[v], [], [.penalties]⟩
  | .setVestingCatchup v _ _ _ | .setVestingBonus v _ _ _
  | .setVestingAcceleration v _ _ | .accelerateVesting v _
  | .setVestingStagger v _ _ | .setBeneficiaryVesting v _ _ _ _ _ _
  | .setYieldDistribution v _ => ⟨[v], [], [.vesting]⟩
  | .setVestingRollover v _ _ => ⟨[v], [], [.rollover]⟩
  | .enableTokenStaking v _ _ | .disableTokenStaking v => ⟨[v], [], [.staking]⟩

section Frames

variable {e : Env} {s : State} {id : Nat}

theorem VestingCall.footprint_vaults (c : VestingCall) : ∃ id, c.footprint.vaults = [id] := by
  cases c <;> exact ⟨_, rfl⟩

/-- A loop over milestones leaves the state alone. -/
theorem readOnly_updateMilestones {α : Type} {as : List α} {ms : List MilestoneEntry}
    {index : α → Nat} {f : α → MilestoneEntry → MilestoneEntry} :
    Tx.ReadOnly (foldEach as ms fun ms a => updateMilestone ms (index a) (f a)) :=
  fun e s => Tx.wp_foldEach (I := fun _ t => t = s) (fun a _ ms t ht => by subst ht; simp) rfl

theorem distributeYield_frame :
    wp (distributeYield id) (fun _ t => Frame ⟨[id], [.balance, .funds], [.vesting]⟩ s t) e s := by
  simp only [distributeYield, Tx.wp_bind, wp_loadVault, wp_storageGet, Tx.wp_fromSome, wp_require,
    wp_timestamp, Tx.wp_onlyIf, wp_payShare, wp_storageSet, wp_saveVault]
  intro v hv staking _ config _ _
  refine ⟨fun _ => ⟨fun _ _ => ?_, fun _ => ?_⟩, fun _ => .refl⟩
  · simp [hv, Vault.agreeOff_iff]
  · simp [hv, Vault.agreeOff_iff]

theorem execVesting_frame (c : VestingCall) :
    wp (execVesting c) (fun _ t => Frame c.footprint s t) e s := by
  cases c with
  | setVestingSchedule => simp [execVesting, VestingCall.footprint, setVestingSchedule]
  | cancelVestingSchedule =>
      simp [execVesting, VestingCall.footprint, cancelVestingSchedule]
      intros
      simp [*, Vault.agreeOff_iff]
  | setVestingPenalty => simp [execVesting, VestingCall.footprint, setVestingPenalty]
  | initiateVestingClaim => simp [execVesting, VestingCall.footprint, initiateVestingClaim]
  | reverseVestingClaim => simp [execVesting, VestingCall.footprint, reverseVestingClaim]
  | finalizeVestingClaim =>
      simp [execVesting, VestingCall.footprint, finalizeVestingClaim]
      intros
      simp [*, Vault.agreeOff_iff]
  | claimVestedInstallment v =>
      simp only [execVesting, Tx.wp_bind, Tx.wp_pure]
      refine Tx.wp_mono claimVestedInstallment_spec ?_
      rintro _ _ ⟨_, h⟩
      exact h.frame
  | setVestingCatchup => simp [execVesting, VestingCall.footprint, setVestingCatchup]
  | claimCatchupVesting v =>
      simp only [execVesting, Tx.wp_bind, Tx.wp_pure]
      refine Tx.wp_mono claimCatchupVesting_spec ?_
      rintro _ _ ⟨_, h⟩
      exact h.frame
  | setVestingBonus => simp [execVesting, VestingCall.footprint, setVestingBonus]
  | claimWithBonus v =>
      simp only [execVesting, Tx.wp_bind, Tx.wp_pure]
      refine Tx.wp_mono claimWithBonus_spec ?_
      rintro _ _ ⟨_, h⟩
      exact h.frame
  | clawbackUnvested v =>
      simp only [execVesting, Tx.wp_bind, Tx.wp_pure]
      refine Tx.wp_mono clawbackUnvested_spec ?_
      rintro _ _ ⟨_, _, h⟩
      exact h
  | setMilestoneVesting => simp [execVesting, VestingCall.footprint, setMilestoneVesting]
  | pauseMilestoneVesting => simp [execVesting, VestingCall.footprint, pauseMilestoneVesting]
  | resumeMilestoneVesting => simp [execVesting, VestingCall.footprint, resumeMilestoneVesting]
  | adjustMilestoneTargets =>
      simp [execVesting, VestingCall.footprint, adjustMilestoneTargets,
        readOnly_updateMilestones.wp_iff]
  | emergencyFulfillMilestones =>
      simp [execVesting, VestingCall.footprint, emergencyFulfillMilestones,
        readOnly_updateMilestones.wp_iff]
  | reportMilestoneProgress =>
      simp [execVesting, VestingCall.footprint, reportMilestoneProgress,
        readOnly_updateMilestones.wp_iff]
  | claimMilestoneInstallments v =>
      simp only [execVesting, Tx.wp_bind, Tx.wp_pure]
      refine Tx.wp_mono claimMilestoneInstallments_spec ?_
      rintro _ _ ⟨_, _, h, _⟩
      exact h.frame
  | setVestingRollover => simp [execVesting, VestingCall.footprint, setVestingRollover]
  | setVestingForfeiture => simp [execVesting, VestingCall.footprint, setVestingForfeiture]
  | setVestingAcceleration => simp [execVesting, VestingCall.footprint, setVestingAcceleration]
  | accelerateVesting => simp [execVesting, VestingCall.footprint, accelerateVesting]
  | setVestingStagger => simp [execVesting, VestingCall.footprint, setVestingStagger]
  | claimStaggeredVesting v c =>
      simp only [execVesting, Tx.wp_bind, Tx.wp_pure]
      refine Tx.wp_mono claimStaggeredVesting_spec ?_
      rintro _ _ ⟨_, _, _, _, _, _, h⟩
      exact h
  | setBeneficiaryVesting => simp [execVesting, VestingCall.footprint, setBeneficiaryVesting]
  | claimBeneficiaryVesting =>
      simp [execVesting, VestingCall.footprint, claimBeneficiaryVesting]
      intros
      simp [*, Vault.agreeOff_iff]
  | enableTokenStaking => simp [execVesting, VestingCall.footprint, enableTokenStaking]
  | disableTokenStaking => simp [execVesting, VestingCall.footprint, disableTokenStaking]
  | setYieldDistribution => simp [execVesting, VestingCall.footprint, setYieldDistribution]
  | distributeYield => exact distributeYield_frame

end Frames

/-! ## What the calls make of a milestone schedule -/

/-- What a call makes of the milestone schedule that it finds. -/
def VestingCall.Evolves : VestingCall → MilestoneVestingSchedule → MilestoneVestingSchedule → Prop
  | .pauseMilestoneVesting _ _, ms, ms' => ms' = { ms with paused := true }
  | .resumeMilestoneVesting _ _, ms, ms' => ms' = { ms with paused := false }
  | .adjustMilestoneTargets _ _ adjustments, ms, ms' => ∃ l,
      Updates Prod.fst (fun a m => { m with targetValue := a.2 }) adjustments ms.milestones l ∧
        ms' = { ms with milestones := l }
  | .emergencyFulfillMilestones _ _ indices, ms, ms' => ∃ l,
      Updates (fun i : Nat => i) (fun _ m =>
        { m with currentValue := max m.currentValue m.targetValue, isFulfilled := true }) indices
          ms.milestones l ∧ ms' = { ms with milestones := l }
  | .reportMilestoneProgress _ indices values, ms, ms' => indices.length = values.length ∧ ∃ l,
      Updates Prod.fst (fun r m => m.progress r.2) (indices.zip values) ms.milestones l ∧
        ms' = { ms with milestones := l }
  | .claimMilestoneInstallments _, ms, ms' =>
      ms.milestones.any (·.claimable) = true ∧ ms' = ms.afterClaim ms.due
  | _, _, _ => False

/-- The call sets the milestone schedule of vault `id`, or changes the one there is. -/
inductive MilestoneStep (id : Nat) (s t : State) : VestingCall → Prop
  | set {caller oracle : Address} {l : List MilestoneEntry} {v : Vault} :
      s.vault id = some v → v.status = .locked → l ≠ [] → (l.map (·.bps)).sum = 10000 →
      (∀ m ∈ l, m.isFulfilled = false) →
      t.get (.milestoneVestingSchedule id) = some ⟨v.balance, l, 0, oracle, false⟩ →
      MilestoneStep id s t (.setMilestoneVesting id caller l oracle)
  | evolve {c : VestingCall} {ms ms' : MilestoneVestingSchedule} :
      c.footprint.vaults = [id] → s.get (.milestoneVestingSchedule id) = some ms →
      t.get (.milestoneVestingSchedule id) = some ms' → c.Evolves ms ms' → MilestoneStep id s t c

section MilestoneSteps

variable {e : Env} {s t : State} {id : Nat} {caller oracle : Address}

theorem MilestoneStep.vaults {c : VestingCall} (h : MilestoneStep id s t c) :
    c.footprint.vaults = [id] := by
  cases h with
  | set => rfl
  | evolve hid => exact hid

theorem setMilestoneVesting_spec {l : List MilestoneEntry} :
    wp (setMilestoneVesting id caller l oracle)
      (fun _ t => MilestoneStep id s t (.setMilestoneVesting id caller l oracle)) e s := by
  simp only [setMilestoneVesting, Tx.wp_bind, wp_assertNotPaused, wp_loadLockedByOwner,
    wp_require, wp_storageGet, wp_u32, wp_storageSet]
  intro _ _ v hv _ hlocked _ _ hne _ hbps hopen
  exact .set hv hlocked hne hbps hopen (by simp)

theorem pauseMilestoneVesting_spec :
    wp (pauseMilestoneVesting id caller)
      (fun _ t => MilestoneStep id s t (.pauseMilestoneVesting id caller)) e s := by
  simp only [pauseMilestoneVesting, Tx.wp_bind, wp_loadMilestonesByOwner, wp_require,
    wp_storageSet]
  intro _ _ _ _ _ ms hms _
  exact .evolve rfl hms (by simp) rfl

theorem resumeMilestoneVesting_spec :
    wp (resumeMilestoneVesting id caller)
      (fun _ t => MilestoneStep id s t (.resumeMilestoneVesting id caller)) e s := by
  simp only [resumeMilestoneVesting, Tx.wp_bind, wp_loadMilestonesByOwner, wp_require,
    wp_storageSet]
  intro _ _ _ _ _ ms hms _
  exact .evolve rfl hms (by simp) rfl

theorem adjustMilestoneTargets_spec {adjustments : List (Nat × Int)} :
    wp (adjustMilestoneTargets id caller adjustments)
      (fun _ t => MilestoneStep id s t (.adjustMilestoneTargets id caller adjustments)) e s := by
  simp only [adjustMilestoneTargets, Tx.wp_bind, wp_loadMilestonesByOwner]
  intro _ _ _ _ _ ms hms
  refine Tx.wp_mono updateMilestones_spec ?_
  rintro l _ ⟨rfl, hupd⟩
  simp only [wp_storageSet]
  exact .evolve rfl hms (by simp) ⟨l, hupd, rfl⟩

theorem emergencyFulfillMilestones_spec {indices : List Nat} :
    wp (emergencyFulfillMilestones id caller indices)
      (fun _ t => MilestoneStep id s t (.emergencyFulfillMilestones id caller indices)) e s := by
  simp only [emergencyFulfillMilestones, Tx.wp_bind, wp_loadMilestonesByOwner]
  intro _ _ _ _ _ ms hms
  refine Tx.wp_mono updateMilestones_spec ?_
  rintro l _ ⟨rfl, hupd⟩
  simp only [wp_require, wp_storageSet]
  exact fun _ => .evolve rfl hms (by simp) ⟨l, hupd, rfl⟩

theorem reportMilestoneProgress_spec {indices : List Nat} {values : List Int} :
    wp (reportMilestoneProgress id indices values)
      (fun _ t => MilestoneStep id s t (.reportMilestoneProgress id indices values)) e s := by
  simp only [reportMilestoneProgress, Tx.wp_bind, wp_assertNotPaused, wp_require, wp_storageGet,
    Tx.wp_fromSome, wp_requireAuth]
  intro _ hlength ms hms _ _
  refine Tx.wp_mono updateMilestones_spec ?_
  rintro l _ ⟨rfl, hupd⟩
  simp only [Tx.wp_onlyIf, Tx.wp_bind, wp_loadVault, wp_storageSet]
  refine ⟨fun _ _ _ => .evolve rfl hms (by simp) ⟨hlength, l, hupd, rfl⟩, fun hnone => ?_⟩
  -- an empty report writes nothing
  obtain rfl : indices = [] := by simpa using hnone
  exact .evolve rfl hms hms ⟨hlength, ms.milestones, ⟨rfl, by simp, fun _ m hm => ⟨m, hm, rfl⟩⟩, rfl⟩

/-- All that a call can do to milestone schedules. -/
theorem execVesting_milestones {c : VestingCall} (hc : .milestones ∈ c.footprint.areas) :
    wp (execVesting c) (fun _ t => ∃ id, MilestoneStep id s t c) e s := by
  cases c with
  | setMilestoneVesting =>
      exact Tx.wp_mono setMilestoneVesting_spec fun _ _ h => ⟨_, h⟩
  | pauseMilestoneVesting =>
      exact Tx.wp_mono pauseMilestoneVesting_spec fun _ _ h => ⟨_, h⟩
  | resumeMilestoneVesting =>
      exact Tx.wp_mono resumeMilestoneVesting_spec fun _ _ h => ⟨_, h⟩
  | adjustMilestoneTargets =>
      exact Tx.wp_mono adjustMilestoneTargets_spec fun _ _ h => ⟨_, h⟩
  | emergencyFulfillMilestones =>
      exact Tx.wp_mono emergencyFulfillMilestones_spec fun _ _ h => ⟨_, h⟩
  | reportMilestoneProgress =>
      exact Tx.wp_mono reportMilestoneProgress_spec fun _ _ h => ⟨_, h⟩
  | claimMilestoneInstallments =>
      simp only [execVesting, Tx.wp_bind, Tx.wp_pure]
      refine Tx.wp_mono claimMilestoneInstallments_spec ?_
      rintro _ t ⟨v, ms, _, hms, rfl, hany, hafter⟩
      exact ⟨_, .evolve rfl hms hafter ⟨hany, rfl⟩⟩
  | _ => simp [VestingCall.footprint] at hc

end MilestoneSteps

/-! ## How time-based schedules change -/

section Schedules

variable {e : Env} {s t u : State} {id i n : Nat} {x : VestingSchedule}

/-- Every schedule of `t` is one of `s`, but for its count. -/
def State.Recounts (s t : State) : Prop :=
  ∀ id i y, t.get (.vestingSchedule id i) = some y →
    ∃ x n, s.get (.vestingSchedule id i) = some x ∧ y = { x with claimedInstallments := n }

namespace State.Recounts

theorem refl : s.Recounts s := fun _ _ y hy => ⟨y, y.claimedInstallments, hy, rfl⟩

theorem trans (h : s.Recounts t) (h' : t.Recounts u) : s.Recounts u := by
  intro id i z hz
  obtain ⟨y, m, hy, rfl⟩ := h' id i z hz
  obtain ⟨x, n, hx, rfl⟩ := h id i y hy
  exact ⟨x, m, hx, rfl⟩

theorem of_get (h : s.Recounts t) (hget : ∀ id i, u.get (.vestingSchedule id i) =
    t.get (.vestingSchedule id i)) : s.Recounts u :=
  fun id i y hy => h id i y ((hget id i).symm.trans hy)

/-- A new count for a schedule that is there. -/
theorem put (h : s.Recounts t) (hx : t.get (.vestingSchedule id i) = some x) :
    s.Recounts (t.put (.vestingSchedule id i) { x with claimedInstallments := n }) := by
  intro id' i' y hy
  by_cases hkey : DataKey.vestingSchedule id' i' = .vestingSchedule id i
  · obtain ⟨rfl, rfl⟩ : id' = id ∧ i' = i := by simpa using hkey
    obtain ⟨z, m, hz, rfl⟩ := h id' i' x hx
    obtain rfl : _ = y := by simpa using hy
    exact ⟨z, n, hz, rfl⟩
  · exact h id' i' y (by rwa [State.get_put_of_ne hkey] at hy)

theorem erase (h : s.Recounts t) : s.Recounts (t.erase (.vestingSchedule id i)) := by
  intro id' i' y hy
  by_cases hkey : DataKey.vestingSchedule id' i' = .vestingSchedule id i
  · obtain ⟨rfl, rfl⟩ : id' = id ∧ i' = i := by simpa using hkey
    simp at hy
  · exact h id' i' y (by rwa [State.get_erase_of_ne hkey] at hy)

end State.Recounts

theorem closeSchedules_recounts {count : Nat} :
    wp (closeSchedules id count) (fun _ t => s.Recounts t) e s := by
  refine Tx.wp_forEach (I := fun t => s.Recounts t) (fun i _ t ht => ?_) .refl
  simp only [Tx.wp_bind, wp_storageGet, Tx.wp_ifSome, wp_storageSet]
  exact ⟨fun x hx => ht.put hx, fun _ => ht⟩

theorem payClaim_recounts {v : Vault} {amount : Int} (h : s.Recounts t)
    (hx : t.get (.vestingSchedule id 0) = some x) {Q : Unit → State → Prop}
    (hQ : ∀ u, s.Recounts u → Q () u) : wp (payClaim id v x amount n) Q e t := by
  refine wp_payClaim fun _ => hQ _ ?_
  rw [State.afterClaim]
  exact (h.of_get (fun _ _ => by simp)).put (by simpa using hx)

theorem claimVestedInstallment_recounts :
    wp (claimVestedInstallment id) (fun _ t => s.Recounts t) e s := by
  simp only [claimVestedInstallment, Tx.wp_bind, wp_assertNotPaused, wp_loadVault, wp_require,
    wp_loadClaimSchedule, wp_assertCliffReached, wp_unlockedForClaim, wp_storageGet,
    wp_installmentAmount]
  intro _ v _ _ x hx _ _ _ _ unlocked _ _ _ _
  refine wp_addRollover fun base t _ hget _ _ => ?_
  have hsame : s.Recounts t := .of_get .refl fun id i => hget _ (by simp)
  have hpay : ∀ amount, wp (require (amount ≤ v.balance) .insufficientBalance)
      (fun _ t => wp (payClaim id v x amount unlocked) (fun _ t => wp (onlyIf (amount < base) do
        let _ ← i128 (base - amount)) (fun _ t => s.Recounts t) e t) e t) e t := by
    intro amount
    simp only [wp_require]
    refine fun _ => payClaim_recounts hsame ((hget _ (by simp)).trans hx) fun u hu => ?_
    simp only [Tx.wp_onlyIf, Tx.wp_bind, wp_i128, Tx.wp_pure]
    exact ⟨fun _ _ => hu, fun _ => hu⟩
  simp only [Tx.wp_ifSomeElse, wp_penalizedAmount, Tx.wp_pure]
  exact ⟨fun _ _ amount _ => by simpa using hpay amount, fun _ => by simpa using hpay base⟩

theorem claimCatchupVesting_recounts :
    wp (claimCatchupVesting id) (fun _ t => s.Recounts t) e s := by
  simp only [claimCatchupVesting, Tx.wp_bind, wp_assertNotPaused, wp_loadVault, wp_require,
    wp_storageGet, Tx.wp_fromSome, wp_loadClaimSchedule, wp_assertCliffReached, wp_timestamp,
    wp_unlockedInstallments, wp_u32, wp_installmentAmount]
  intro _ v _ _ config _ _ x hx _ _ _ _ _ _ _ _ amount _ _
  exact payClaim_recounts .refl hx fun u hu => Tx.wp_pure.mpr hu

theorem claimWithBonus_recounts :
    wp (claimWithBonus id) (fun _ t => s.Recounts t) e s := by
  simp only [claimWithBonus, Tx.wp_bind, wp_assertNotPaused, wp_loadVault, wp_require,
    wp_storageGet, Tx.wp_fromSome, wp_loadClaimSchedule, wp_assertCliffReached, wp_timestamp,
    wp_unlockedInstallments, wp_installmentAmount, wp_allOnTime, wp_i128, Tx.wp_ite]
  intro _ v _ _ config _ x hx _ _ _ _ _ _ _ base _ onTime _ _ _
  refine ⟨fun _ => ?_, fun _ => ?_⟩
  · exact payClaim_recounts .refl hx fun u hu => Tx.wp_pure.mpr hu
  · exact payClaim_recounts .refl hx fun u hu => wp_reportBonusShares (Tx.wp_pure.mpr hu)

theorem clawbackUnvested_recounts {caller : Address} :
    wp (clawbackUnvested id caller) (fun _ t => s.Recounts t) e s := by
  simp only [clawbackUnvested, Tx.wp_bind, wp_assertNotPaused, wp_requireAuth, wp_loadVault,
    wp_require, wp_storageGet, wp_totalUnvested, wp_transfer, wp_i128]
  intro _ _ v _ _ _ _ unvested _ _ _ _ _
  refine Tx.wp_mono closeSchedules_recounts fun _ t ht => ?_
  simp only [wp_saveVault, Tx.wp_pure]
  exact (State.Recounts.trans (.of_get .refl fun _ _ => rfl) ht).of_get fun _ _ => by simp

/-- Once made, a schedule changes in its count only. -/
theorem execVesting_recounts {c : VestingCall}
    (hc : ∀ id a t i n x p, c ≠ .setVestingSchedule id a t i n x p) :
    wp (execVesting c) (fun _ t => s.Recounts t) e s := by
  by_cases hareas : .schedules ∈ c.footprint.areas
  · cases c with
    | setVestingSchedule v a t i n x p => exact absurd rfl (hc v a t i n x p)
    | cancelVestingSchedule v i caller =>
        simp only [execVesting, cancelVestingSchedule, Tx.wp_bind, wp_requireAuth, wp_loadVault,
          wp_require, wp_storageGet, Tx.wp_fromSome, wp_unclaimed, wp_saveVault, wp_storageRemove]
        intro _ _ _ _ _ _ _ _
        exact (State.Recounts.of_get .refl fun _ _ => by simp).erase
    | initiateVestingClaim v n =>
        simp only [execVesting, initiateVestingClaim, Tx.wp_bind, wp_assertNotPaused, wp_require,
          wp_storageGet, wp_loadVault, wp_loadClaimSchedule, wp_timestamp, wp_unlockedInstallments,
          wp_installmentAmount, wp_u64, wp_storageSet, Tx.wp_pure]
        intro _ _ _ _ _ _ x hx _ _ unlocked _ _ _ _ _
        exact (State.Recounts.put (n := unlocked) .refl hx).of_get fun _ _ => by simp
    | reverseVestingClaim v a =>
        simp only [execVesting, reverseVestingClaim, Tx.wp_bind, wp_requireAuth, wp_loadVault,
          wp_require, wp_storageGet, Tx.wp_fromSome, wp_timestamp, Tx.wp_ifSome, wp_storageSet,
          wp_storageRemove]
        intro _ _ _ _ pending _ _
        refine ⟨fun x hx => ?_, fun _ => .of_get .refl fun _ _ => by simp⟩
        exact (State.Recounts.put (n := pending.prevInstallmentsClaimed) .refl hx).of_get
          fun _ _ => by simp
    | claimVestedInstallment v =>
        simp only [execVesting, Tx.wp_bind, Tx.wp_pure]
        exact claimVestedInstallment_recounts
    | claimCatchupVesting v =>
        simp only [execVesting, Tx.wp_bind, Tx.wp_pure]
        exact claimCatchupVesting_recounts
    | claimWithBonus v =>
        simp only [execVesting, Tx.wp_bind, Tx.wp_pure]
        exact claimWithBonus_recounts
    | clawbackUnvested v caller =>
        simp only [execVesting, Tx.wp_bind, Tx.wp_pure]
        exact clawbackUnvested_recounts
    | _ => simp [VestingCall.footprint] at hareas
  · exact Tx.wp_mono (execVesting_frame c) fun _ t hframe =>
      .of_get .refl fun _ _ => hframe.get_of_area (by simpa using hareas)

/-- `P` holds of all time-based schedules. -/
def State.EverySchedule (s : State) (P : VestingSchedule → Prop) : Prop :=
  ∀ id i x, s.get (.vestingSchedule id i) = some x → P x

/-- What holds of a new schedule and does not depend on the count holds of all of them. -/
theorem execVesting_everySchedule {c : VestingCall} {P : VestingSchedule → Prop}
    (hnew : ∀ start interval num amount cliff, interval ≠ 0 ∧ num ≠ 0 → 0 < amount →
      P ⟨start, interval, num, 0, amount, cliff⟩)
    (hcount : ∀ x n, P x → P { x with claimedInstallments := n }) (hs : s.EverySchedule P) :
    wp (execVesting c) (fun _ t => t.EverySchedule P) e s := by
  by_cases hset : ∃ id a t i n x p, c = .setVestingSchedule id a t i n x p
  · obtain ⟨id, a, start, interval, num, amount, cliff, rfl⟩ := hset
    simp only [execVesting, setVestingSchedule, Tx.wp_bind, wp_assertNotPaused,
      wp_loadLockedByOwner, wp_require, wp_u64, wp_storageGet, wp_totalScheduled, wp_storageSet,
      Tx.wp_pure]
    intro _ _ _ _ _ _ hpos _ _ _ _ hamount _ _ _ _ id' i y hy
    rw [State.get_put_of_ne (by simp)] at hy
    by_cases hkey : DataKey.vestingSchedule id' i =
        .vestingSchedule id ((s.get (.vestingScheduleCount id)).getD 0)
    · obtain ⟨rfl, rfl⟩ : id' = id ∧ i = (s.get (.vestingScheduleCount id)).getD 0 := by
        simpa using hkey
      obtain rfl : _ = y := by simpa using hy
      exact hnew start interval num amount cliff hpos hamount
    · exact hs id' i y (by rwa [State.get_put_of_ne hkey] at hy)
  · refine Tx.wp_mono (execVesting_recounts fun id a t i n x p h => hset ⟨id, a, t, i, n, x, p, h⟩)
      fun _ t h id i y hy => ?_
    obtain ⟨x, n, hx, rfl⟩ := h id i y hy
    exact hcount x n (hs id i x hx)

/-- Vault `id` has no time-based schedule, at any index. -/
def State.NoSchedule (s : State) (id : Nat) : Prop := ∀ i, s.get (.vestingSchedule id i) = none

theorem State.NoSchedule.of_recounts (hs : s.NoSchedule id) (h : s.Recounts t) :
    t.NoSchedule id := by
  intro i
  cases hy : t.get (.vestingSchedule id i) with
  | none => rfl
  | some y =>
      obtain ⟨x, n, hx, -⟩ := h id i y hy
      rw [hs i] at hx
      cases hx

/-- The first time-based schedule of a vault is made by `set_vesting_schedule`. -/
theorem execVesting_noSchedule {c : VestingCall}
    (hc : ∀ a t i n x p, c ≠ .setVestingSchedule id a t i n x p)
    (hvault : c.footprint.vaults = [id]) (hs : s.NoSchedule id) :
    wp (execVesting c) (fun _ t => t.NoSchedule id) e s := by
  refine Tx.wp_mono (execVesting_recounts fun id' a t i n x p h => ?_) fun _ t h => hs.of_recounts h
  subst h
  obtain rfl : id' = id := by simpa [VestingCall.footprint] using hvault
  exact hc a t i n x p rfl

end Schedules

end Heirloom
