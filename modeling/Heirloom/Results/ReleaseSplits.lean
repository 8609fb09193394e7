import Heirloom.Results.Collateral
import Heirloom.Results.ReleaseModes

/-!
# What a release pays

A release runs over the list of heirs twice: to find those who take part, and to split the
net amount among them by their weights. A vault without a list pays its beneficiary.

* `release_split_iff`: the split is exact and total, as long as it does not divide by a
  total weight of zero.
* `burn_share_iff`: the burned share is kept back from a list of heirs, but not from the
  beneficiary of a vault without a list (`beneficiary_gets_burned_share`).
-/

namespace Heirloom

open Transaction Runs

/-- An heir takes part in a release of `amount`: its triggers admit the mode, it has not
declined, the amount reaches its tier, and its part of the whole reaches its minimum. -/
def State.Admits (s : State) (id : Nat) (mode : ReleaseTrigger) (amount : Int)
    (entry : BeneficiaryEntry) : Prop :=
  (heirTriggers ((s.get (.beneficiaryReleaseTriggers id)).getD []) entry.address = [] ∨
    mode ∈ heirTriggers ((s.get (.beneficiaryReleaseTriggers id)).getD []) entry.address) ∧
  (s.get (.beneficiaryStatusEntry id entry.address)).getD .pending ≠ .declined ∧
  ¬ (0 < (s.get (.beneficiaryTierThreshold id entry.address)).getD 0 ∧
    amount < (s.get (.beneficiaryTierThreshold id entry.address)).getD 0) ∧
  ¬ (0 < entry.minimumThreshold ∧
    (amount * entry.bps).tdiv 10000 < entry.minimumThreshold)

instance (s : State) (id : Nat) (mode : ReleaseTrigger) (amount : Int) :
    DecidablePred (s.Admits id mode amount) := fun entry => by
  unfold State.Admits
  infer_instance

/-- The heirs of a list that take part, in order. -/
def State.qualifying (s : State) (id : Nat) (mode : ReleaseTrigger) (amount : Int)
    (entries : List BeneficiaryEntry) : List BeneficiaryEntry :=
  entries.filter fun entry => s.Admits id mode amount entry

section Qualifying

variable {e : Env} {s t : State} {id : Nat} {mode : ReleaseTrigger} {amount : Int}
  {entry : BeneficiaryEntry} {entries : List BeneficiaryEntry}

/-- The round of the first loop decides whether the heir takes part. -/
theorem wp_qualifies :
    wp (qualifies id ((s.get (.beneficiaryReleaseTriggers id)).getD []) amount mode entry)
      (fun b t => t = s ∧ b = decide (s.Admits id mode amount entry)) e s := by
  simp only [qualifies, Tx.wp_bind, wp_storageGet, Tx.wp_ite, Tx.wp_pure, wp_i128, true_and]
  refine ⟨fun h => ?_, fun htrigger => ⟨fun h => ?_, fun hstatus => ⟨fun h => ?_, ?_⟩⟩⟩
  · exact (decide_eq_false fun hadmits => hadmits.1.elim h.1 h.2).symm
  · exact (decide_eq_false fun hadmits => hadmits.2.1 h).symm
  · exact (decide_eq_false fun hadmits => hadmits.2.2.1 h).symm
  · intro htier _
    rw [← decide_not]
    refine decide_eq_decide.mpr ⟨fun hmin => ⟨?_, hstatus, htier, hmin⟩, fun h => h.2.2.2⟩
    exact or_iff_not_imp_left.mpr fun hne => not_not.mp fun hmode => htrigger ⟨hne, hmode⟩

/-- No round fails for an amount whose product with the whole fits into `i128`. -/
theorem qualifies_ok (ha : 0 ≤ amount) (hmax : amount * 10000 ≤ i128Max)
    (hbps : entry.bps ≤ 10000) :
    qualifies id ((s.get (.beneficiaryReleaseTriggers id)).getD []) amount mode entry e s =
      .ok (decide (s.Admits id mode amount entry), s) := by
  have hproduct : i128 (amount * entry.bps) = pure (amount * (entry.bps : Int)) := by
    refine i128_eq_pure (Int.mul_nonneg ha (by omega)) (le_trans ?_ hmax)
    exact Int.mul_le_mul_of_nonneg_left (by exact_mod_cast hbps) ha
  cases hrun : qualifies id ((s.get (.beneficiaryReleaseTriggers id)).getD []) amount mode entry
      e s with
  | ok p =>
      obtain ⟨ht, hb⟩ := wp_qualifies _ _ hrun
      exact congrArg Except.ok (Prod.ext hb ht)
  | error failure =>
      unfold qualifies at hrun
      rw [hproduct] at hrun
      simp at hrun

theorem qualifying_concat : s.qualifying id mode amount (entries ++ [entry]) =
    if decide (s.Admits id mode amount entry) = true then
      s.qualifying id mode amount entries ++ [entry]
    else s.qualifying id mode amount entries := by
  by_cases h : s.Admits id mode amount entry <;> simp [State.qualifying, h]

/-- The first loop finds those who take part. -/
theorem wp_qualifyingHeirs :
    wp (qualifyingHeirs id ((s.get (.beneficiaryReleaseTriggers id)).getD []) amount mode entries)
      (fun l t => t = s ∧ l = s.qualifying id mode amount entries) e s := by
  suffices h : ∀ done rest, done ++ rest = entries →
      wp (foldEach rest (s.qualifying id mode amount done) fun qualifying entry => do
        let takesPart ← qualifies id ((s.get (.beneficiaryReleaseTriggers id)).getD []) amount mode
          entry
        return if takesPart then qualifying ++ [entry] else qualifying)
      (fun l t => t = s ∧ l = s.qualifying id mode amount entries) e s from
    h [] entries rfl
  intro done rest hsplit
  induction rest generalizing done with
  | nil => simpa [foldEach] using congrArg _ hsplit
  | cons entry rest ih =>
      simp only [foldEach, Tx.wp_bind, Tx.wp_pure]
      refine Tx.wp_mono wp_qualifies ?_
      rintro _ _ ⟨rfl, rfl⟩
      rw [← qualifying_concat]
      exact ih (done ++ [entry]) (by simpa using hsplit)

/-- The first loop goes through. -/
theorem qualifyingHeirs_ok (ha : 0 ≤ amount) (hmax : amount * 10000 ≤ i128Max)
    (hbps : ∀ entry ∈ entries, entry.bps ≤ 10000) :
    qualifyingHeirs id ((s.get (.beneficiaryReleaseTriggers id)).getD []) amount mode entries e s =
      .ok (s.qualifying id mode amount entries, s) := by
  suffices h : ∀ done rest, done ++ rest = entries →
      foldEach rest (s.qualifying id mode amount done) (fun qualifying entry => do
        let takesPart ← qualifies id ((s.get (.beneficiaryReleaseTriggers id)).getD []) amount mode
          entry
        return if takesPart then qualifying ++ [entry] else qualifying) e s =
      .ok (s.qualifying id mode amount entries, s) from
    h [] entries rfl
  intro done rest hsplit
  induction rest generalizing done with
  | nil => simpa [foldEach, pure] using congrArg _ hsplit
  | cons entry rest ih =>
      have hentry := hbps entry (hsplit ▸ List.mem_append_right _ List.mem_cons_self)
      rw [foldEach, Tx.bind_of_ok (Tx.bind_of_ok (qualifies_ok ha hmax hentry)),
        ← qualifying_concat]
      exact ih (done ++ [entry]) (by simpa using hsplit)

theorem totalBps_qualifying_le :
    totalBps (s.qualifying id mode amount entries) ≤ totalBps entries := totalBps_filter_le

end Qualifying

/-! ## The split -/

/-- The token takes the transfers of `amount` out of the contract, to whomever. -/
structure Affordable (e : Env) (s : State) (token : Address) (amount : Int) : Prop where
  accepts : ∀ dest x, e.tokenAccepts token currentContractAddress dest x = true
  held : amount ≤ s.holding token currentContractAddress

/-- The transfers of a release of `amount` are exact and total: without heirs who take part,
the whole goes to the owner; otherwise nothing goes to anybody but the heirs who take part,
and each of them gets at least its rounded part. -/
structure SplitsExactly (s : State) (id : Nat) (v : Vault) (mode : ReleaseTrigger) (amount : Int)
    (log : Log) : Prop where
  total : (log.map (·.amount)).sum = amount
  owner : s.qualifying id mode amount v.beneficiaries = [] →
    log = [outgoing v.tokenAddress v.owner amount]
  heirs : s.qualifying id mode amount v.beneficiaries ≠ [] → ∃ shares : List Int,
    List.Forall₂ (fun (entry : BeneficiaryEntry) x => 0 ≤ x ∧
        Split.part amount (totalBps (s.qualifying id mode amount v.beneficiaries) : Nat)
          entry.bps ≤ x)
      (s.qualifying id mode amount v.beneficiaries) shares ∧
    log = paymentLog v.tokenAddress
      (((s.qualifying id mode amount v.beneficiaries).map (·.address)).zip shares)

section Splits

variable {e : Env} {s t : State} {token : Address} {amount denom : Int}
  {entries : List BeneficiaryEntry} {payments : List (Address × Int)}

/-- Payments that the contract can afford are made. -/
theorem payEach_ok (h : Affordable e s token (totalPaid payments)) :
    payEach token payments e s = .ok ((), s.transferAll (paymentLog token payments)) := by
  induction payments generalizing s with
  | nil => rfl
  | cons p ps ih =>
      have htotal : totalPaid (p :: ps) = max p.2 0 + totalPaid ps := by simp [totalPaid]
      have hrest : 0 ≤ totalPaid ps := List.sum_nonneg fun x hx => by
        obtain ⟨q, -, rfl⟩ := List.mem_map.mp hx
        exact le_max_right _ _
      have hheld := h.held
      rw [htotal] at hheld
      have hpay : payShare token p.1 p.2 e s = .ok ((), s.transferAll (paymentLog token [p])) := by
        by_cases hpos : 0 < p.2
        · have hpayable : Payable e s token currentContractAddress p.1 p.2 :=
            ⟨hpos.le, .inl rfl, h.accepts _ _, by omega⟩
          simp [payShare, hpos, hpayable, paymentLog, State.pay_eq_transferAll]
        · simp [payShare, hpos, paymentLog, onlyIf]
      have hfair : Fair token (paymentLog token [p]) := fair_paymentLog
      have hafter := TokenLedger.Ledger.flow_le_holding (l := s.ledger)
        (a := currentContractAddress) hfair
      have hflow : TokenLedger.Ledger.flow (paymentLog token [p]) currentContractAddress =
          -max p.2 0 := flow_paymentLog.trans (by simp [totalPaid])
      rw [payEach, forEach, paymentLog_cons, State.transferAll_append, Tx.bind_of_ok hpay]
      refine ih ⟨h.accepts, ?_⟩
      rw [hflow] at hafter
      unfold State.holding at hheld ⊢
      rw [State.ledger_transferAll]
      omega

theorem sum_paymentLog : ((paymentLog token payments).map (·.amount)).sum = totalPaid payments := by
  induction payments with
  | nil => rfl
  | cons p ps ih =>
      have hone : ((paymentLog token [p]).map (·.amount)).sum = max p.2 0 := by
        by_cases hp : 0 < p.2
        · simp [paymentLog, outgoing, hp, hp.le]
        · simp [paymentLog, hp, not_lt.mp hp]
      rw [paymentLog_cons, List.map_append, List.sum_append, ih, hone]
      simp [totalPaid]

variable {s : State} {id : Nat} {v : Vault} {mode : ReleaseTrigger} {log : Log}

/-- A split whose weights add up to `denom` is exact for those who take part. -/
theorem splitsExactly_heirs (ha : 0 ≤ amount) (hpos : 0 < denom)
    (hbps : (totalBps (s.qualifying id mode amount v.beneficiaries) : Int) ≤ denom)
    (hdenom : totalBps (s.qualifying id mode amount v.beneficiaries) = 0 ∨
      denom = totalBps (s.qualifying id mode amount v.beneficiaries))
    (hne : s.qualifying id mode amount v.beneficiaries ≠ []) :
    SplitsExactly s id v mode amount (paymentLog v.tokenAddress
      (splitPayments amount denom amount (s.qualifying id mode amount v.beneficiaries))) := by
  refine ⟨?_, fun h => absurd h hne, fun _ => ⟨Split.shares amount denom amount
    ((s.qualifying id mode amount v.beneficiaries).map (·.bps)), ?_, rfl⟩⟩
  · rw [sum_paymentLog, totalPaid_splitPayments ha hpos hbps hne]
  · have hfloor := List.forall₂_map_left_iff.mp (Split.floor_le_shares ha hpos hbps)
    refine hfloor.imp fun entry x hx => ?_
    have hx0 : 0 ≤ x := (Split.part_nonneg ha hpos).trans hx
    rcases hdenom with hzero | rfl
    · exact ⟨hx0, by simpa [Split.part, hzero] using hx0⟩
    · exact ⟨hx0, hx⟩

theorem distributeReleaseAmount_eq (ha : 0 ≤ amount) (hmax : amount * 10000 ≤ i128Max)
    (hbps : totalBps v.beneficiaries ≤ 10000) :
    distributeReleaseAmount id v amount mode e s =
      if s.qualifying id mode amount v.beneficiaries = [] then
        transfer v.tokenAddress currentContractAddress v.owner amount e s
      else
        payShares v.tokenAddress amount (totalBps (s.qualifying id mode amount v.beneficiaries)) 0
          (s.qualifying id mode amount v.beneficiaries) e s := by
  have hentries : ∀ entry ∈ v.beneficiaries, entry.bps ≤ 10000 := fun entry hentry =>
    (List.le_sum_of_mem (List.mem_map_of_mem hentry)).trans hbps
  have hmin : min (totalBps (s.qualifying id mode amount v.beneficiaries)) u32Max =
      totalBps (s.qualifying id mode amount v.beneficiaries) :=
    min_eq_left ((totalBps_qualifying_le.trans hbps).trans (by decide))
  unfold distributeReleaseAmount
  rw [Tx.bind_of_ok (ok_storageGet.mpr ⟨rfl, rfl⟩),
    Tx.bind_of_ok (qualifyingHeirs_ok ha hmax hentries), hmin]
  split <;> rfl

/-- Splitting what the contract can afford goes through, and is exact, unless several heirs take
part and none of them has a weight. -/
theorem distributeReleaseAmount_iff (ha : 0 ≤ amount) (hmax : amount * 10000 ≤ i128Max)
    (hbps : totalBps v.beneficiaries ≤ 10000) (hfund : Affordable e s v.tokenAddress amount) :
    (∃ log, distributeReleaseAmount id v amount mode e s = .ok ((), s.transferAll log) ∧
      SplitsExactly s id v mode amount log) ↔
    ¬ (1 < (s.qualifying id mode amount v.beneficiaries).length ∧
      totalBps (s.qualifying id mode amount v.beneficiaries) = 0) := by
  rw [distributeReleaseAmount_eq ha hmax hbps]
  have hle : totalBps (s.qualifying id mode amount v.beneficiaries) ≤ 10000 :=
    totalBps_qualifying_le.trans hbps
  have hpays : ∀ {denom : Int}, 0 < denom → denom ≤ 10000 →
      (totalBps (s.qualifying id mode amount v.beneficiaries) : Int) ≤ denom →
      s.qualifying id mode amount v.beneficiaries ≠ [] →
      payShares v.tokenAddress amount denom 0 (s.qualifying id mode amount v.beneficiaries) e s =
        .ok ((), s.transferAll (paymentLog v.tokenAddress
          (splitPayments amount denom amount (s.qualifying id mode amount v.beneficiaries)))) := by
    intro denom hpos hdenom hcover hne
    rw [payShares_eq_payEach ha hmax hpos hdenom hcover]
    refine payEach_ok ⟨hfund.accepts, ?_⟩
    rw [totalPaid_splitPayments ha hpos hcover hne]
    exact hfund.held
  constructor
  · rintro ⟨log, hrun, -⟩ ⟨hmany, hzero⟩
    -- the first division already fails
    rw [hzero] at hrun
    cases hq : s.qualifying id mode amount v.beneficiaries with
    | nil => simp [hq] at hmany
    | cons entry rest =>
        cases rest with
        | nil => simp [hq] at hmany
        | cons next rest => simp [hq, payShares] at hrun
  · intro h
    by_cases hq : s.qualifying id mode amount v.beneficiaries = []
    · refine ⟨[outgoing v.tokenAddress v.owner amount], ?_, by simp [outgoing], fun _ => rfl,
        absurd hq⟩
      have hpayable : Payable e s v.tokenAddress currentContractAddress v.owner amount :=
        ⟨ha, .inl rfl, hfund.accepts _ _, hfund.held⟩
      rw [if_pos hq]
      exact ok_transfer.mpr ⟨hpayable, State.pay_eq_transferAll⟩
    rw [if_neg hq]
    rcases Nat.eq_zero_or_pos (totalBps (s.qualifying id mode amount v.beneficiaries)) with
      hzero | hpos
    · -- one heir alone is paid without a division, so that any denominator will do
      refine ⟨_, ?_, splitsExactly_heirs ha (by decide : (0 : Int) < 1) (by omega) (.inl hzero) hq⟩
      rw [← hpays (by decide) (by decide) (by omega) hq, hzero]
      cases hq' : s.qualifying id mode amount v.beneficiaries with
      | nil => exact absurd hq' hq
      | cons entry rest =>
          cases rest with
          | nil => rfl
          | cons next rest => exact absurd ⟨by simp [hq'], hzero⟩ h
    · refine ⟨_, ?_, splitsExactly_heirs ha (by exact_mod_cast hpos) le_rfl (.inr rfl) hq⟩
      exact hpays (by exact_mod_cast hpos) (by exact_mod_cast hle) le_rfl hq

end Splits

/-- For every list of heirs that a release of a reachable vault may split `amount` over, in
either mode: the split goes through and is exact, unless it divides by zero. That happens if
two or more heirs take part and all who do have the weight zero. -/
theorem release_split_iff {w : World} (hw : Reachable w) {id : Nat} {v u : Vault} {e : Env}
    {mode : ReleaseTrigger} {amount : Int} (hv : w.state.vault id = some v)
    (hu : u = v ∨ ∃ e', u = v.rotated e' w.state id) (ha : 0 ≤ amount)
    (hmax : amount * 10000 ≤ i128Max) (hfund : Affordable e w.state u.tokenAddress amount) :
    (∃ log, distributeReleaseAmount id u amount mode e w.state =
        .ok ((), w.state.transferAll log) ∧ SplitsExactly w.state id u mode amount log) ↔
    ¬ (1 < (w.state.qualifying id mode amount u.beneficiaries).length ∧
      totalBps (w.state.qualifying id mode amount u.beneficiaries) = 0) := by
  refine distributeReleaseAmount_iff ha hmax ?_ hfund
  rcases hu with rfl | ⟨e', rfl⟩
  · exact hw.sound.heirs id u hv
  · exact hw.sound.rotationSound id v hv

/-- Of three heirs one has declined; the other two share in the proportion of their weights. -/
theorem release_split_two_of_three : ∃ (w : World) (v : Vault) (log : Log), Reachable w ∧
    w.state.vault 1 = some v ∧
    (w.state.qualifying 1 .expiry 100 v.beneficiaries).map (·.address) = [⟨3⟩, ⟨5⟩] ∧
    SplitsExactly w.state 1 v .expiry 100 log := by
  have hplay : (play (initialised ⟨8⟩ ⟨9⟩)
      [opensVault 100, paysIn 100,
        (signedBy [⟨1⟩] 0, .heir (.setBeneficiaries 1 ⟨1⟩
          [⟨⟨3⟩, 3000, 0⟩, ⟨⟨4⟩, 2000, 0⟩, ⟨⟨5⟩, 5000, 0⟩])),
        (signedBy [⟨4⟩] 0, .heir (.declineBeneficiaryRole 1 ⟨4⟩))]).any (fun w =>
      100 ≤ w.state.holding ⟨8⟩ currentContractAddress ∧ (w.state.vault 1).any fun v =>
        v.tokenAddress = ⟨8⟩ ∧
        (w.state.qualifying 1 .expiry 100 v.beneficiaries).map (·.address) = [⟨3⟩, ⟨5⟩] ∧
        totalBps (w.state.qualifying 1 .expiry 100 v.beneficiaries) ≠ 0) = true := by
    decide +kernel
  simp only [Option.any_eq_true, decide_eq_true_eq] at hplay
  obtain ⟨w, hw, hheld, v, hv, htoken, hq, hweights⟩ := hplay
  have hfund : Affordable (signedBy [] 200) w.state v.tokenAddress 100 :=
    ⟨fun _ _ => rfl, htoken ▸ hheld⟩
  obtain ⟨log, -, hsplit⟩ := (release_split_iff (reachable_of_play hw) hv (.inl rfl) (by decide)
    (by decide) hfund).mpr fun h => hweights h.2
  exact ⟨w, v, log, reachable_of_play hw, hv, hq, hsplit⟩

/-- Two heirs are accepted with the weight zero. The vault cannot be released to them: the
split divides by their total weight. -/
theorem weightless_heirs_unpaid : ∃ (w : World) (v : Vault), Reachable w ∧
    w.state.vault 1 = some v ∧ v.beneficiaries ≠ [] ∧
    Affordable (signedBy [] 200) w.state v.tokenAddress 100 ∧
    (∀ t, distributeReleaseAmount 1 v 100 .expiry (signedBy [] 200) w.state ≠ .ok ((), t)) ∧
    ∀ w', ¬ Step w (.call (signedBy [] 200) (.release (.triggerRelease 1))) w' := by
  have hplay : (play (initialised ⟨8⟩ ⟨9⟩)
      [opensVault 100, paysIn 100,
        (signedBy [⟨1⟩] 0, .heir (.addBeneficiary 1 ⟨1⟩ ⟨3⟩ 0)),
        (signedBy [⟨1⟩] 0, .heir (.addBeneficiary 1 ⟨1⟩ ⟨4⟩ 0))]).any (fun w =>
      100 ≤ w.state.holding ⟨8⟩ currentContractAddress ∧
      succeeded (exec (.release (.triggerRelease 1)) (signedBy [] 200) w.state) = false ∧
      (w.state.vault 1).any fun v => v.tokenAddress = ⟨8⟩ ∧ v.beneficiaries ≠ [] ∧
        succeeded (distributeReleaseAmount 1 v 100 .expiry (signedBy [] 200) w.state) = false) =
        true := by decide +kernel
  simp only [Option.any_eq_true, decide_eq_true_eq] at hplay
  obtain ⟨w, hw, hheld, hrelease, v, hv, htoken, hne, hsplit⟩ := hplay
  refine ⟨w, v, reachable_of_play hw, hv, hne, ⟨fun _ _ => rfl, htoken ▸ hheld⟩, ?_, ?_⟩
  · intro t h
    rw [h] at hsplit
    cases hsplit
  · rintro w' hstep
    cases hstep with
    | call _ hexec =>
        rw [hexec] at hrelease
        cases hrelease

/-! ## The burned share -/

/-- The addresses that a release may pay as heirs. -/
def Vault.heirs (v : Vault) : List Address :=
  if v.beneficiaries = [] then [v.beneficiary] else v.beneficiaries.map (·.address)

/-- The part of a release that is burned, rounded down. -/
def Vault.burned (v : Vault) : Int := v.releaseAmount * v.burnPercentage / 10000

/-- What the transfers bring to some addresses. -/
def receivedBy (heirs : List Address) (log : Log) : Int :=
  ((log.filter (·.dest ∈ heirs)).map (·.amount)).sum

/-- A release of vault `id` pays its heirs all but the burned part, and takes the whole from
the balance. -/
structure BurnsShare (id : Nat) (v : Vault) (heirs : List Address) (s t : State) : Prop where
  paid : ∃ log, t.ledger.log = s.ledger.log ++ log ∧
    receivedBy heirs log = v.releaseAmount - v.burned
  debited : t.balance id = s.balance id - v.releaseAmount

/-- What makes up for the burned part. With a list of heirs, one of them takes part, or the
owner who gets the amount otherwise is one of them; without a list, nothing is burned. -/
def State.SharesBurn (s : State) (e : Env) (id : Nat) (v : Vault) : Prop :=
  if s.acceptanceLapsed id e.timestamp then
    -- the funds go back to the owner
    v.releaseAmount = v.balance ∧
      if v.owner ∈ (v.rotated e s id).heirs then v.burned = 0 else v.releaseAmount = v.burned
  else if (v.rotated e s id).beneficiaries = [] then
    v.burned = 0
  else
    v.releaseAmount = v.burned ∨ (0 ≤ v.balance ∧
      (s.qualifying id .expiry v.netAmount (v.rotated e s id).beneficiaries ≠ [] ∨
        v.owner ∈ (v.rotated e s id).heirs))

instance (s : State) (id now : Nat) : Decidable (s.acceptanceLapsed id now) :=
  inferInstanceAs (Decidable (_ = true))

instance (s : State) (e : Env) (id : Nat) (v : Vault) : Decidable (s.SharesBurn e id v) := by
  unfold State.SharesBurn
  infer_instance

instance (s : State) (id : Nat) (v : Vault) : Decidable (s.vests id v) :=
  inferInstanceAs (Decidable (_ ∨ _ ∨ _))

/-- The transfers of a release that is not kept back by a vesting schedule. -/
inductive ReleasePays (e : Env) (s : State) (id : Nat) (v : Vault) (mode : ReleaseTrigger) :
    Log → Prop
  | refund (hlapsed : s.acceptanceLapsed id e.timestamp) (hpos : 0 ≤ v.balance) :
      ReleasePays e s id v mode [outgoing v.tokenAddress v.owner v.balance]
  | beneficiary (hlapsed : ¬ s.acceptanceLapsed id e.timestamp)
      (hlist : (v.rotated e s id).beneficiaries = []) (hpos : 0 ≤ v.releaseAmount) :
      ReleasePays e s id v mode [outgoing v.tokenAddress v.beneficiary v.releaseAmount]
  | owner (hlapsed : ¬ s.acceptanceLapsed id e.timestamp)
      (hlist : (v.rotated e s id).beneficiaries ≠ [])
      (hnone : s.qualifying id mode v.netAmount (v.rotated e s id).beneficiaries = [])
      (hpos : 0 ≤ v.netAmount) :
      ReleasePays e s id v mode [outgoing v.tokenAddress v.owner v.netAmount]
  | heirs (l : List BeneficiaryEntry) (hlapsed : ¬ s.acceptanceLapsed id e.timestamp)
      (hlist : (v.rotated e s id).beneficiaries ≠ [])
      (hl : s.qualifying id mode v.netAmount (v.rotated e s id).beneficiaries = l) (hne : l ≠ [])
      (hweights : 1 < l.length → 0 < totalBps l) :
      ReleasePays e s id v mode
        (paymentLog v.tokenAddress (splitPayments v.netAmount (totalBps l : Nat) v.netAmount l))

section Burns

variable {e : Env} {s t : State} {id : Nat} {v : Vault} {mode : ReleaseTrigger} {amount : Int}
  {entries l : List BeneficiaryEntry} {log : Log} {heirs : List Address} {token a : Address}

/-- Who takes part is read from three keys. -/
theorem qualifying_congr
    (htriggers : t.get (.beneficiaryReleaseTriggers id) = s.get (.beneficiaryReleaseTriggers id))
    (hstatus : ∀ a, t.get (.beneficiaryStatusEntry id a) = s.get (.beneficiaryStatusEntry id a))
    (htier : ∀ a, t.get (.beneficiaryTierThreshold id a) = s.get (.beneficiaryTierThreshold id a)) :
    t.qualifying id mode amount entries = s.qualifying id mode amount entries := by
  have hadmits : ∀ entry, t.Admits id mode amount entry ↔ s.Admits id mode amount entry := by
    intro entry
    unfold State.Admits
    rw [htriggers, hstatus, htier]
  exact List.filter_congr fun entry _ => decide_eq_decide.mpr (hadmits entry)

/-- A split that goes through has something to divide by. -/
theorem wp_payShares_divides :
    wp (payShares token amount (totalBps l : Nat) 0 l)
      (fun _ t => t = s.transferAll
          (paymentLog token (splitPayments amount (totalBps l : Nat) amount l)) ∧
        (1 < l.length → 0 < totalBps l)) e s := by
  intro _ t hrun
  refine ⟨ok_payShares hrun, fun hmany => Nat.pos_of_ne_zero fun hzero => ?_⟩
  rw [hzero] at hrun
  cases l with
  | nil => simp at hmany
  | cons entry rest =>
      cases rest with
      | nil => simp at hmany
      | cons next rest => simp [payShares] at hrun

theorem distributeReleaseAmount_pays (hbps : totalBps v.beneficiaries ≤ 10000) :
    wp (distributeReleaseAmount id v amount mode) (fun _ t => ∃ log, t = s.transferAll log ∧
      (s.qualifying id mode amount v.beneficiaries = [] ∧ 0 ≤ amount ∧
          log = [outgoing v.tokenAddress v.owner amount] ∨
        ∃ l, s.qualifying id mode amount v.beneficiaries = l ∧ l ≠ [] ∧
          (1 < l.length → 0 < totalBps l) ∧
          log = paymentLog v.tokenAddress (splitPayments amount (totalBps l : Nat) amount l)))
      e s := by
  simp only [distributeReleaseAmount, Tx.wp_bind, wp_storageGet]
  refine Tx.wp_mono wp_qualifyingHeirs ?_
  rintro l t ⟨rfl, hl⟩
  have hmin : min (totalBps l) u32Max = totalBps l := by
    refine min_eq_left (le_trans ?_ (by decide : 10000 ≤ u32Max))
    rw [hl]
    exact totalBps_qualifying_le.trans hbps
  rw [hmin]
  split
  · next hnone =>
      simp only [wp_transfer]
      exact fun hpay => ⟨_, State.pay_eq_transferAll, .inl ⟨hl ▸ hnone, hpay.1, rfl⟩⟩
  · next hne =>
      refine Tx.wp_mono wp_payShares_divides ?_
      rintro _ _ ⟨rfl, hweights⟩
      exact ⟨_, rfl, .inr ⟨l, hl.symm, hne, hweights, rfl⟩⟩

theorem releaseToHeirs_pays (hlapsed : ¬ s.acceptanceLapsed id e.timestamp)
    (hvests : ¬ s.vests id (v.rotated e s id))
    (hbps : totalBps (v.rotated e s id).beneficiaries ≤ 10000) :
    wp (releaseToHeirs id v mode) (fun _ t => ∃ log, t.ledger = s.ledger.transferAll log ∧
      ReleasePays e s id v mode log) e s := by
  simp only [releaseToHeirs, releaseFunds, markReleaseAttempted, Tx.wp_bind, wp_timestamp,
    wp_applyRotation, wp_hasVesting, wp_storageSet, Tx.wp_ite, wp_i128]
  refine fun vesting hvesting => ⟨fun h => ?_, fun _ _ _ => ?_⟩
  · exact absurd ((hasVesting_ok hvesting).mp h) hvests
  · show wp (payRelease id (v.rotated e s id) v.releaseAmount v.netAmount mode) _ e _
    have hpays : wp (payRelease id (v.rotated e s id) v.releaseAmount v.netAmount mode)
        (fun _ t => ∃ log, t = (s.put (.releaseAttempted id) true).transferAll log ∧
          ReleasePays e s id v mode log) e (s.put (.releaseAttempted id) true) := by
      unfold payRelease
      split
      · next hlist =>
          simp only [wp_transfer]
          exact fun hpay => ⟨_, State.pay_eq_transferAll, .beneficiary hlapsed hlist hpay.1⟩
      · next hlist =>
          refine Tx.wp_mono (distributeReleaseAmount_pays hbps) ?_
          rintro _ _ ⟨log, rfl, hlog⟩
          rw [qualifying_congr (State.get_put_of_ne (by simp))
            (fun _ => State.get_put_of_ne (by simp))
            (fun _ => State.get_put_of_ne (by simp))] at hlog
          rcases hlog with ⟨hnone, hpos, rfl⟩ | ⟨l, hl, hne, hweights, rfl⟩
          · exact ⟨_, rfl, .owner hlapsed hlist hnone hpos⟩
          · exact ⟨_, rfl, .heirs l hlapsed hlist hl hne hweights⟩
    refine Tx.wp_mono hpays ?_
    rintro _ _ ⟨log, rfl, hlog⟩
    simp only [wp_saveVault, Tx.wp_onlyIf, archiveReleased, Tx.wp_bind, wp_recordStateTransition,
      wp_storageSet, wp_storageRemove]
    exact fun _ => ⟨fun _ => ⟨log, rfl, hlog⟩, fun _ => ⟨log, rfl, hlog⟩⟩

/-- What is known of a release before its checks remains so. -/
theorem ReleasePays.of_cleared (h : Cleared id s t) (hpays : ReleasePays e t id v mode log) :
    ReleasePays e s id v mode log := by
  have hqualifying : ∀ {x entries},
      t.qualifying id mode x entries = s.qualifying id mode x entries :=
    fun {_ _} => qualifying_congr (h.get _ (by simp)) (fun _ => h.get _ (by simp))
      (fun _ => h.get _ (by simp))
  have hlapse : t.acceptanceLapsed id e.timestamp ↔ s.acceptanceLapsed id e.timestamp :=
    h.acceptanceLapsed
  have hrotated : v.rotated e t id = v.rotated e s id := h.rotated
  cases hpays with
  | refund hlapsed hpos => exact .refund (hlapse.mp hlapsed) hpos
  | beneficiary hlapsed hlist hpos =>
      exact .beneficiary (hlapsed ∘ hlapse.mpr) (hrotated ▸ hlist) hpos
  | owner hlapsed hlist hnone hpos =>
      rw [hqualifying, hrotated] at hnone
      exact .owner (hlapsed ∘ hlapse.mpr) (hrotated ▸ hlist) hnone hpos
  | heirs l hlapsed hlist hl hne hweights =>
      rw [hqualifying, hrotated] at hl
      exact .heirs l (hlapsed ∘ hlapse.mpr) (hrotated ▸ hlist) hl hne hweights

theorem triggerReleaseInternal_pays (hv : s.vault id = some v)
    (hvests : ¬ s.vests id (v.rotated e s id))
    (hbps : totalBps (v.rotated e s id).beneficiaries ≤ 10000) :
    wp (triggerReleaseInternal id mode) (fun _ t => ∃ log, t.ledger = s.ledger.transferAll log ∧
      ReleasePays e s id v mode log) e s := by
  refine triggerReleaseInternal_rule (fun v' s₂ hfound hlapsed => ?_) fun v' s₂ hfound hlapsed => ?_
  all_goals
    obtain rfl : v' = v := Option.some.inj (hfound.before.symm.trans hv)
    obtain ⟨hcleared, -, hvs, -⟩ := hfound
  · simp only [refundOwner, Tx.wp_bind, wp_transfer, wp_saveVault, wp_recordStateTransition]
    refine fun hpay => ⟨[outgoing v'.tokenAddress v'.owner v'.balance], ?_,
      .of_cleared hcleared (.refund hlapsed hpay.1)⟩
    rw [← hcleared.ledger]
    simp [State.pay_eq_transferAll]
  · rw [← hcleared.rotated] at hbps
    have hunvested : ¬ s₂.vests id (v'.rotated e s₂ id) := by
      intro h
      have hunpaid : s.Unpaid e id := hcleared.unpaid_iff.mp (.inr ⟨v', hvs, h⟩)
      rcases hunpaid with hlapse | ⟨u, hu, hvested⟩
      · exact hlapsed (hcleared.acceptanceLapsed.mpr hlapse)
      · obtain rfl := Option.some.inj (hu.symm.trans hv)
        exact hvests hvested
    refine Tx.wp_mono (releaseToHeirs_pays hlapsed hunvested hbps) ?_
    rintro _ t ⟨log, hledger, hlog⟩
    exact ⟨log, hcleared.ledger ▸ hledger, hlog.of_cleared hcleared⟩

/-! What the heirs receive of it. -/

theorem receivedBy_singleton : receivedBy heirs [outgoing token a amount] =
    if a ∈ heirs then amount else 0 := by
  by_cases h : a ∈ heirs <;> simp [receivedBy, outgoing, h]

theorem receivedBy_of_forall (h : ∀ x ∈ log, x.dest ∈ heirs) :
    receivedBy heirs log = (log.map (·.amount)).sum := by
  rw [receivedBy, List.filter_eq_self.mpr fun x hx => decide_eq_true (h x hx)]

/-- A split pays out exactly the amount; that of a debt pays nothing. -/
theorem totalPaid_splitPayments_max (hne : l ≠ []) (hl : 1 < l.length → 0 < totalBps l) :
    totalPaid (splitPayments amount (totalBps l : Nat) amount l) = max amount 0 := by
  rcases l with _ | ⟨entry, _ | ⟨next, rest⟩⟩
  · exact absurd rfl hne
  · rw [splitPayments_singleton]
    simp [totalPaid]
  · have hpos : (0 : Int) < (totalBps (entry :: next :: rest) : Nat) := by
      exact_mod_cast hl (by simp)
    rcases le_total 0 amount with ha | ha
    · rw [totalPaid_splitPayments ha hpos le_rfl hne, max_eq_left ha]
    · rw [max_eq_right ha, totalPaid]
      refine List.sum_eq_zero fun x hx => ?_
      obtain ⟨p, hp, rfl⟩ := List.mem_map.mp hx
      have hshare := List.mem_map_of_mem (f := (·.2)) hp
      rw [map_snd_splitPayments] at hshare
      exact max_eq_right (Split.shares_nonpos ha hpos le_rfl _ hshare)

theorem mem_heirs_of_qualifying {entry : BeneficiaryEntry}
    (h : entry ∈ s.qualifying id mode amount v.beneficiaries) : entry.address ∈ v.heirs := by
  have hentry : entry ∈ v.beneficiaries := (List.mem_filter.mp h).1
  rw [Vault.heirs, if_neg (List.ne_nil_of_mem hentry)]
  exact List.mem_map_of_mem hentry

theorem receivedBy_splitPayments (hl : s.qualifying id mode amount v.beneficiaries = l)
    (hne : l ≠ []) (hweights : 1 < l.length → 0 < totalBps l) :
    receivedBy v.heirs (paymentLog token (splitPayments amount (totalBps l : Nat) amount l)) =
      max amount 0 := by
  rw [receivedBy_of_forall, sum_paymentLog, totalPaid_splitPayments_max hne hweights]
  intro x hx
  by_contra haway
  refine dest_paymentLog (a := x.dest) (fun entry hentry haddress => haway ?_) x hx rfl
  exact haddress ▸ mem_heirs_of_qualifying (hl ▸ hentry)

/-- Without a debt, the net amount is what the burned part leaves. -/
theorem netAmount_eq (h : 0 ≤ v.releaseAmount) : v.netAmount = v.releaseAmount - v.burned := by
  have hproduct : 0 ≤ v.releaseAmount * (v.burnPercentage : Int) := Int.mul_nonneg h (by omega)
  rw [Vault.netAmount, Vault.burned, Int.tdiv_eq_ediv_of_nonneg hproduct]

theorem netAmount_nonneg (h : 0 ≤ v.releaseAmount) (hburn : v.burnPercentage ≤ 10000) :
    0 ≤ v.netAmount :=
  sub_nonneg.mpr (percentage_bounds h hburn).2

theorem netAmount_nonpos (h : v.releaseAmount ≤ 0) (hburn : v.burnPercentage ≤ 10000) :
    v.netAmount ≤ 0 := by
  have hneg := (percentage_bounds (neg_nonneg.mpr h) hburn).2
  rw [neg_mul, Int.neg_tdiv] at hneg
  unfold Vault.netAmount
  omega

/-- Without a debt, a list of heirs is due the net amount; with one, it is due nothing that
could be paid. -/
theorem netAmount_max_iff (hrange : v.InRange) :
    max v.netAmount 0 = v.releaseAmount - v.burned ↔
      v.releaseAmount = v.burned ∨ 0 ≤ v.balance := by
  rcases le_or_gt 0 v.balance with hbalance | hbalance
  · have hpos := releaseAmount_nonneg hbalance fun l hl => (hrange.2 l hl).le
    rw [max_eq_left (netAmount_nonneg hpos hrange.1)]
    exact iff_of_true (netAmount_eq hpos) (.inr hbalance)
  · have hneg : v.releaseAmount ≤ 0 := releaseAmount_le.trans hbalance.le
    rw [max_eq_right (netAmount_nonpos hneg hrange.1)]
    omega

/-- What the heirs receive is all but the burned part under the condition. -/
theorem ReleasePays.shares_iff (hrange : v.InRange) (h : ReleasePays e s id v .expiry log) :
    ((s.acceptanceLapsed id e.timestamp → v.releaseAmount = v.balance) ∧
      receivedBy (v.rotated e s id).heirs log = v.releaseAmount - v.burned) ↔
    s.SharesBurn e id v := by
  unfold State.SharesBurn
  cases h with
  | refund hlapsed hpos =>
      rw [if_pos hlapsed, receivedBy_singleton]
      by_cases howner : v.owner ∈ (v.rotated e s id).heirs
      · rw [if_pos howner, if_pos howner]
        refine ⟨fun h => ⟨h.1 hlapsed, ?_⟩, fun h => ⟨fun _ => h.1, by omega⟩⟩
        have hwhole := h.1 hlapsed
        omega
      · rw [if_neg howner, if_neg howner]
        exact ⟨fun h => ⟨h.1 hlapsed, by omega⟩, fun h => ⟨fun _ => h.1, by omega⟩⟩
  | beneficiary hlapsed hlist hpos =>
      have hheir : v.beneficiary ∈ (v.rotated e s id).heirs := by
        rw [Vault.heirs, if_pos hlist]
        exact List.mem_singleton_self _
      rw [if_neg hlapsed, if_pos hlist, receivedBy_singleton, if_pos hheir]
      exact ⟨fun hpaid => by omega, fun hnone => ⟨fun hlapse => absurd hlapse hlapsed, by omega⟩⟩
  | owner hlapsed hlist hnone hpos =>
      rw [if_neg hlapsed, if_neg hlist, receivedBy_singleton, hnone]
      by_cases howner : v.owner ∈ (v.rotated e s id).heirs
      · rw [if_pos howner, ← max_eq_left hpos, netAmount_max_iff hrange]
        simp [hlapsed, howner]
      · rw [if_neg howner]
        simp only [hlapsed, howner, ne_eq, not_true_eq_false, or_false, and_false,
          false_implies, true_and]
        omega
  | heirs l hlapsed hlist hl hne hweights =>
      rw [if_neg hlapsed, if_neg hlist,
        receivedBy_splitPayments (v := v.rotated e s id) hl hne hweights, netAmount_max_iff hrange,
        hl]
      simp [hlapsed, hne]

end Burns

/-- For every release, by `trigger_release`, of a reachable vault without vesting: the heirs
receive all but the burned part, and the whole is taken from the balance, exactly if something
makes up for the burned part. For a vault that pays its beneficiary nothing does: the burned
part has to round to nothing. -/
theorem burn_share_iff {w w' : World} (hw : Reachable w) {id : Nat} {v : Vault} {e : Env}
    (hv : w.state.vault id = some v) (hvests : ¬ w.state.vests id (v.rotated e w.state id))
    (hstep : Step w (.call e (.release (.triggerRelease id))) w') :
    BurnsShare id v (v.rotated e w.state id).heirs w.state w'.state ↔
      w.state.SharesBurn e id v := by
  cases hstep with
  | call _ hexec =>
      have hbps : w.state.RotationSound e id := hw.sound.rotationSound id
      obtain ⟨log, hledger, hpays⟩ :=
        triggerReleaseInternal_pays hv hvests (hbps v hv) _ _ hexec
      have hbalance := triggerRelease_balance hbps _ _ hexec id
      have hlog := congrArg (·.log) hledger
      simp only [TokenLedger.Ledger.log_transferAll] at hlog
      have hpayout : w.state.releasePayout e id = v.releaseAmount ↔
          (w.state.acceptanceLapsed id e.timestamp → v.releaseAmount = v.balance) := by
        unfold State.releasePayout
        rw [hv, Option.elim_some, if_neg hvests]
        by_cases hlapsed : w.state.acceptanceLapsed id e.timestamp
        · simp [hlapsed, eq_comm]
        · simp [hlapsed]
      rw [← hpays.shares_iff (hw.sound.settings id v hv), ← hpayout]
      rw [if_pos rfl] at hbalance
      constructor
      · rintro ⟨⟨log', hlog', hpaid⟩, hdebited⟩
        obtain rfl : log' = log := List.append_cancel_left (hlog'.symm.trans hlog)
        exact ⟨sub_right_inj.mp (hbalance.symm.trans hdebited), hpaid⟩
      · rintro ⟨hwhole, hpaid⟩
        exact ⟨⟨log, hlog, hpaid⟩, by rw [hbalance, hwhole]⟩

/-- A sole heir on a list gets half of the funds when the other half is burned. -/
theorem burn_share_sole_heir : ∃ (w w' : World) (v : Vault), Reachable w ∧
    w.state.vault 1 = some v ∧ v.burned = 50 ∧
    BurnsShare 1 v [⟨3⟩] w.state w'.state := by
  have hplay : (play (initialised ⟨8⟩ ⟨9⟩)
      [opensVault 100, paysIn 100,
        (signedBy [⟨1⟩] 0, .vault (.setBurnPercentage 1 5000)),
        (signedBy [⟨1⟩] 0, .heir (.setBeneficiaries 1 ⟨1⟩ [⟨⟨3⟩, 10000, 0⟩]))]).any (fun w =>
      w.clock ≤ 200 ∧ succeeded (exec (.release (.triggerRelease 1)) (signedBy [] 200) w.state) ∧
      (w.state.vault 1).any fun v => v.burned = 50 ∧
        (v.rotated (signedBy [] 200) w.state 1).heirs = [⟨3⟩] ∧
        ¬ w.state.vests 1 (v.rotated (signedBy [] 200) w.state 1) ∧
        w.state.SharesBurn (signedBy [] 200) 1 v) = true := by decide +kernel
  simp only [Option.any_eq_true, decide_eq_true_eq] at hplay
  obtain ⟨w, hw, hclock, hok, v, hv, hburned, hheirs, hvests, hshares⟩ := hplay
  obtain ⟨_, t, hexec⟩ := ok_of_succeeded hok
  refine ⟨w, ⟨t, 200⟩, v, reachable_of_play hw, hv, hburned, ?_⟩
  rw [← hheirs]
  exact (burn_share_iff (reachable_of_play hw) hv hvests (.call hclock hexec)).mpr hshares

/-- The beneficiary of a vault without a list gets everything, although half of it is
burned. -/
theorem beneficiary_gets_burned_share :
    ¬ ∀ (w w' : World) (id : Nat) (v : Vault) (e : Env), Reachable w → w.state.vault id = some v →
      ¬ w.state.vests id (v.rotated e w.state id) →
      Step w (.call e (.release (.triggerRelease id))) w' →
        BurnsShare id v (v.rotated e w.state id).heirs w.state w'.state := by
  have hplay : (play (initialised ⟨8⟩ ⟨9⟩)
      [opensVault 100, paysIn 100,
        (signedBy [⟨1⟩] 0, .vault (.setBurnPercentage 1 5000))]).any (fun w =>
      w.clock ≤ 200 ∧ succeeded (exec (.release (.triggerRelease 1)) (signedBy [] 200) w.state) ∧
      transfersOf w.state (exec (.release (.triggerRelease 1)) (signedBy [] 200) w.state) =
        [⟨⟨8⟩, currentContractAddress, ⟨2⟩, 100⟩] ∧
      (w.state.vault 1).any fun v => v.releaseAmount = 100 ∧ v.burned = 50 ∧
        (v.rotated (signedBy [] 200) w.state 1).heirs = [⟨2⟩] ∧
        ¬ w.state.vests 1 (v.rotated (signedBy [] 200) w.state 1)) = true := by decide +kernel
  simp only [Option.any_eq_true, decide_eq_true_eq] at hplay
  obtain ⟨w, hw, hclock, hok, htransfers, v, hv, hamount, hburned, hheirs, hvests⟩ := hplay
  obtain ⟨_, t, hexec⟩ := ok_of_succeeded hok
  intro h
  obtain ⟨log, hlog, hpaid⟩ :=
    (h w _ 1 v _ (reachable_of_play hw) hv hvests (.call hclock hexec)).paid
  have hlog : t.ledger.log = w.state.ledger.log ++ log := hlog
  rw [hexec, transfersOf, hlog, List.drop_left] at htransfers
  rw [hheirs, htransfers, hamount, hburned] at hpaid
  revert hpaid
  decide

end Heirloom
