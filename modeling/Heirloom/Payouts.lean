import Heirloom.Frame
import Heirloom.Lib.Split

/-!
# Paying a list of heirs

The loop that `partial_release`, `distribute_release_amount`,
`claim_vested_installment`, `claim_milestone_installments`,
`claim_catchup_vesting` and `claim_with_bonus` all carry: it runs over a list
of heirs, pays each its part in basis points, and gives the last one what
remains. `payShares` is that loop as the code computes it, with every overflow
check. What it does when it succeeds is the split of `Heirloom.Lib.Split`
(`ok_payShares`), and for an amount that is not too large none of its checks can
fail (`payShares_eq_payEach`).
-/

namespace Heirloom

open Transaction

/-- Pays `share` out of the contract, if there is something to pay. -/
def payShare (token dest : Address) (share : Int) : Contract Unit :=
  onlyIf (0 < share) (transfer token currentContractAddress dest share)

/-- The payout loop, with `distributed` already paid. -/
def payShares (token : Address) (amount denom : Int) :
    Int → List BeneficiaryEntry → Contract Unit
  | _, [] => pure ()
  | distributed, [entry] => do
      let share ← i128 (amount - distributed)
      payShare token entry.address share
      let _ ← i128 (distributed + share)
  | distributed, entry :: next :: rest => do
      let product ← i128 (amount * entry.bps)
      let share ← divI product denom
      payShare token entry.address share
      let distributed' ← i128 (distributed + share)
      payShares token amount denom distributed' (next :: rest)

/-- Pays `amount` to the beneficiary of a vault, or splits it among its heirs. -/
def payHeirs (vault : Vault) (amount : Int) : Contract Unit :=
  if vault.beneficiaries = [] then
    transfer vault.tokenAddress currentContractAddress vault.beneficiary amount
  else
    payShares vault.tokenAddress amount 10000 0 vault.beneficiaries

/-- Pays each address its amount, in order. -/
def payEach (token : Address) (payments : List (Address × Int)) : Contract Unit :=
  forEach payments fun p => payShare token p.1 p.2

/-- The payments of a split over `entries`. -/
def splitPayments (amount denom left : Int) (entries : List BeneficiaryEntry) :
    List (Address × Int) :=
  (entries.map (·.address)).zip (Split.shares amount denom left (entries.map (·.bps)))

/-- The total of the payments that are made. -/
def totalPaid (payments : List (Address × Int)) : Int := (payments.map fun p => max p.2 0).sum

/-- The transfers that the payments make. -/
def paymentLog (token : Address) (payments : List (Address × Int)) : Log :=
  (payments.filter (0 < ·.2)).map fun p => outgoing token p.1 p.2

/-- The transfers by which a vault pays `amount` to its heirs. -/
def Vault.heirsLog (vault : Vault) (amount : Int) : Log :=
  if vault.beneficiaries = [] then
    [outgoing vault.tokenAddress vault.beneficiary amount]
  else
    paymentLog vault.tokenAddress (splitPayments amount 10000 amount vault.beneficiaries)

section Payments

variable {e : Env} {s t : State} {token a : Address} {amount denom distributed x : Int}
  {entries : List BeneficiaryEntry} {payments payments' : List (Address × Int)}
  {p : Address × Int} {v : Vault}

theorem paymentLog_cons :
    paymentLog token (p :: payments) = paymentLog token [p] ++ paymentLog token payments := by
  by_cases hp : 0 < p.2 <;> simp [paymentLog, hp]

theorem fair_paymentLog : Fair token (paymentLog token payments) := by
  intro y hy
  obtain ⟨p, hp, rfl⟩ := List.mem_map.mp hy
  have hpos : 0 < p.2 := by simpa using (List.mem_filter.mp hp).2
  exact ⟨rfl, hpos.le⟩

theorem flow_paymentLog : flow (paymentLog token payments) = -totalPaid payments := by
  induction payments with
  | nil => rfl
  | cons p ps ih =>
      have hone : flow (paymentLog token [p]) = -max p.2 0 := by
        by_cases hp : 0 < p.2
        · simp [paymentLog, hp, hp.le]
        · simp [paymentLog, hp, not_lt.mp hp]
      rw [paymentLog_cons, flow_append, ih, hone]
      simp only [totalPaid, List.map_cons, List.sum_cons]
      omega

@[simp ↓] theorem wp_payShare {Q : Unit → State → Prop} :
    wp (payShare token a x) Q e s ↔
      (0 < x → Payable e s token currentContractAddress a x →
        Q () (s.pay token currentContractAddress a x)) ∧ (¬ 0 < x → Q () s) := by
  simp [payShare]

theorem ok_payShare {u : Unit} (h : payShare token a x e s = .ok (u, t)) :
    t = s.transferAll (paymentLog token [(a, x)]) := by
  simp only [payShare, Tx.ok_onlyIf, ok_transfer] at h
  obtain ⟨hx, _, rfl⟩ | ⟨hx, rfl⟩ := h
  · simp [paymentLog, hx, State.pay_eq_transferAll]
  · simp [paymentLog, hx]

theorem payShare_max : payShare token a (max x 0) = payShare token a x := by
  by_cases h : 0 < x
  · rw [max_eq_left h.le]
  · rw [max_eq_right (not_lt.mp h)]
    funext e s
    simp [payShare, Tx.onlyIf, h]

theorem ok_payEach {u : Unit}
    (h : payEach token payments e s = .ok (u, t)) :
    t = s.transferAll (paymentLog token payments) := by
  induction payments generalizing s with
  | nil =>
      simp only [payEach, forEach, Tx.ok_pure] at h
      exact h.2.symm
  | cons p ps ih =>
      simp only [payEach, forEach, Tx.ok_bind] at h
      obtain ⟨_, u, hp, hps⟩ := h
      rw [paymentLog_cons, State.transferAll_append, ← ok_payShare hp]
      exact ih hps

/-! ## The split -/

theorem splitPayments_singleton {left : Int} {entry : BeneficiaryEntry} :
    splitPayments amount denom left [entry] = [(entry.address, left)] := rfl

theorem splitPayments_cons_cons {left : Int} {entry next : BeneficiaryEntry} :
    splitPayments amount denom left (entry :: next :: entries) =
      (entry.address, Split.part amount denom entry.bps) ::
        splitPayments amount denom (left - Split.part amount denom entry.bps) (next :: entries) :=
  rfl

theorem map_snd_splitPayments {left : Int} :
    (splitPayments amount denom left entries).map (·.2) =
      Split.shares amount denom left (entries.map (·.bps)) := by
  rw [splitPayments, List.map_snd_zip (by simp)]

/-- A split among weights of at most the whole pays out exactly the amount. -/
theorem totalPaid_splitPayments (ha : 0 ≤ amount) (hd : 0 < denom)
    (hbps : (totalBps entries : Int) ≤ denom) (hne : entries ≠ []) :
    totalPaid (splitPayments amount denom amount entries) = amount := by
  have hmax : ∀ x ∈ Split.shares amount denom amount (entries.map (·.bps)), max x 0 = x :=
    fun x hx => max_eq_left (Split.shares_nonneg ha hd hbps x hx)
  calc totalPaid (splitPayments amount denom amount entries)
      = ((Split.shares amount denom amount (entries.map (·.bps))).map fun x => max x 0).sum := by
        rw [← map_snd_splitPayments, List.map_map]
        rfl
    _ = (Split.shares amount denom amount (entries.map (·.bps))).sum := by
        rw [List.map_congr_left hmax, List.map_id']
    _ = amount := Split.sum_shares (by simpa using hne)

/-! ## The loop -/

theorem ok_payShares_aux {u : Unit}
    (h : payShares token amount denom distributed entries e s = .ok (u, t)) :
    t = s.transferAll
      (paymentLog token (splitPayments amount denom (amount - distributed) entries)) := by
  induction entries generalizing distributed s with
  | nil =>
      simp only [payShares, Tx.ok_pure] at h
      exact h.2.symm
  | cons entry rest ih =>
      cases rest with
      | nil =>
          simp only [payShares, Tx.ok_bind, ok_i128, Tx.ok_pure] at h
          obtain ⟨_, _, ⟨_, rfl, rfl⟩, _, _, hp, _, _, ⟨_, rfl, rfl⟩, _, rfl⟩ := h
          exact ok_payShare hp
      | cons next rest =>
          simp only [payShares, Tx.ok_bind, ok_i128, ok_divI] at h
          obtain ⟨_, _, ⟨_, rfl, rfl⟩, _, _, ⟨_, rfl, rfl⟩, _, u, hp, _, _, ⟨_, rfl, rfl⟩, hr⟩ := h
          have hrest := ih hr
          rw [ok_payShare hp, ← sub_sub] at hrest
          rw [splitPayments_cons_cons, paymentLog_cons, State.transferAll_append]
          exact hrest

/-- A successful payout makes exactly the payments of the split. -/
theorem ok_payShares {u : Unit} (h : payShares token amount denom 0 entries e s = .ok (u, t)) :
    t = s.transferAll (paymentLog token (splitPayments amount denom amount entries)) := by
  simpa using ok_payShares_aux h

theorem wp_payShares {Q : Unit → State → Prop}
    (h : Q () (s.transferAll (paymentLog token (splitPayments amount denom amount entries)))) :
    wp (payShares token amount denom 0 entries) Q e s :=
  fun _ _ hok => ok_payShares hok ▸ h

/-! ## Overflow -/

theorem i128_eq_pure (h : 0 ≤ x) (h' : x ≤ i128Max) : i128 x = pure x := by
  funext e s
  have hmin : i128Min ≤ 0 := by decide
  simp [i128, Tx.ensure, bind, pure, h', hmin.trans h]

theorem divI_eq_pure (h : denom ≠ 0) : divI x denom = pure (x.tdiv denom) := by
  funext e s
  simp [divI, Tx.ensure, bind, pure, h]

/-- The loop with `distributed` already paid, as long as what is left covers the shares
still to come. -/
theorem payShares_eq_payEach_aux (ha : 0 ≤ amount) (hmax : amount * 10000 ≤ i128Max)
    (hpos : 0 < denom) (hdenom : denom ≤ 10000) (hd : 0 ≤ distributed)
    (hcover : amount * (totalBps entries : Int) ≤ (amount - distributed) * denom) :
    payShares token amount denom distributed entries =
      payEach token (splitPayments amount denom (amount - distributed) entries) := by
  have hwhole : amount * denom ≤ i128Max :=
    (Int.mul_le_mul_of_nonneg_left hdenom ha).trans hmax
  have hnonneg : ∀ n : Nat, 0 ≤ amount * (n : Int) := fun n => Int.mul_nonneg ha (by omega)
  have hleft : ∀ {x : Int}, 0 ≤ (amount - x) * denom → x ≤ amount := fun {x} hx =>
    sub_nonneg.mp (le_of_mul_le_mul_right (by rwa [zero_mul]) hpos)
  induction entries generalizing distributed with
  | nil => rfl
  | cons entry rest ih =>
      have htotal : totalBps (entry :: rest) = entry.bps + totalBps rest := by simp [totalBps]
      rw [htotal, Nat.cast_add, mul_add] at hcover
      have hrest := hnonneg (totalBps rest)
      have hbps := hnonneg entry.bps
      have hpaid : distributed ≤ amount := hleft (by omega)
      cases rest with
      | nil =>
          have hlast : i128 (amount - distributed) = pure (amount - distributed) :=
            i128_eq_pure (by omega) (by omega)
          have hall : i128 (distributed + (amount - distributed)) =
              pure (distributed + (amount - distributed)) := i128_eq_pure (by omega) (by omega)
          simp only [payShares, hlast]
          show (payShare token entry.address (amount - distributed) >>= fun _ =>
            i128 (distributed + (amount - distributed)) >>= fun _ => pure ()) = _
          rw [hall]
          rfl
      | cons next rest =>
          have hpart : 0 ≤ Split.part amount denom entry.bps := Split.part_nonneg ha hpos
          have hmul : Split.part amount denom entry.bps * denom ≤ amount * entry.bps :=
            Split.part_mul_le ha hpos
          have hcovers : amount * (totalBps (next :: rest) : Int) ≤
              (amount - (distributed + Split.part amount denom entry.bps)) * denom := by
            rw [← sub_sub, sub_mul]
            omega
          have hsum : distributed + Split.part amount denom entry.bps ≤ amount :=
            hleft (hrest.trans hcovers)
          have hless : (amount - distributed) * denom ≤ amount * denom :=
            Int.mul_le_mul_of_nonneg_right (by omega) hpos.le
          have hproduct : i128 (amount * entry.bps) = pure (amount * (entry.bps : Int)) :=
            i128_eq_pure hbps (by omega)
          have hdiv : divI (amount * (entry.bps : Int)) denom =
              pure (Split.part amount denom entry.bps) := divI_eq_pure hpos.ne'
          have hnext : i128 (distributed + Split.part amount denom entry.bps) =
              pure (distributed + Split.part amount denom entry.bps) :=
            i128_eq_pure (by omega) (by omega)
          have hih := ih (by omega) hcovers
          rw [← sub_sub] at hih
          rw [splitPayments_cons_cons]
          simp only [payShares, hproduct]
          show (divI (amount * (entry.bps : Int)) denom >>= fun share =>
            payShare token entry.address share >>= fun _ => i128 (distributed + share) >>= fun paid =>
              payShares token amount denom paid (next :: rest)) = _
          rw [hdiv]
          show (payShare token entry.address (Split.part amount denom entry.bps) >>= fun _ =>
            i128 (distributed + Split.part amount denom entry.bps) >>= fun paid =>
              payShares token amount denom paid (next :: rest)) = _
          rw [hnext]
          show (payShare token entry.address (Split.part amount denom entry.bps) >>= fun _ =>
            payShares token amount denom (distributed + Split.part amount denom entry.bps)
              (next :: rest)) = _
          rw [hih]
          rfl

/-- For an amount whose product with the whole fits into `i128`, and a list that gives away at
most `denom`, no check of the loop can fail: it makes the payments of the split. -/
theorem payShares_eq_payEach (ha : 0 ≤ amount) (hmax : amount * 10000 ≤ i128Max)
    (hpos : 0 < denom) (hdenom : denom ≤ 10000) (hbps : (totalBps entries : Int) ≤ denom) :
    payShares token amount denom 0 entries =
      payEach token (splitPayments amount denom amount entries) := by
  have hcover : amount * (totalBps entries : Int) ≤ amount * denom :=
    Int.mul_le_mul_of_nonneg_left hbps ha
  simpa using payShares_eq_payEach_aux ha hmax hpos hdenom le_rfl (by simpa using hcover)

/-! ## The heirs of a vault -/

/-- A part in basis points is between nothing and the whole. -/
theorem percentage_bounds {pct : Nat} (ha : 0 ≤ amount) (hpct : pct ≤ 10000) :
    0 ≤ (amount * pct).tdiv 10000 ∧ (amount * pct).tdiv 10000 ≤ amount := by
  have hle : amount * pct ≤ amount * (10000 : Int) :=
    Int.mul_le_mul_of_nonneg_left (by exact_mod_cast hpct) ha
  exact ⟨Split.part_nonneg ha (by decide), Split.part_le_left ha (by decide) hle⟩

/-- Paying the heirs makes the transfers of `heirsLog`; a single beneficiary can
only be paid an amount that is not negative. -/
theorem wp_payHeirs {Q : Unit → State → Prop}
    (h : Fair v.tokenAddress (v.heirsLog amount) → Q () (s.transferAll (v.heirsLog amount))) :
    wp (payHeirs v amount) Q e s := by
  unfold payHeirs Vault.heirsLog at *
  split
  · next hempty =>
      simp only [hempty, if_true] at h
      exact wp_transfer.mpr fun hpay => h (fair_outgoing hpay.1)
  · next hlist =>
      simp only [hlist, if_false] at h
      exact wp_payShares (h fair_paymentLog)

/-- The heirs get the amount, if it is not negative and the list is well formed. -/
theorem flow_heirsLog (ha : 0 ≤ amount) (hbps : totalBps v.beneficiaries ≤ 10000) :
    flow (v.heirsLog amount) = -amount := by
  unfold Vault.heirsLog
  split
  · exact flow_outgoing
  · next hlist =>
      rw [flow_paymentLog, totalPaid_splitPayments ha (by omega) ?_ hlist]
      exact_mod_cast hbps

end Payments

end Heirloom
