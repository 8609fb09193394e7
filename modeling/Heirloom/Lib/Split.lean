import Mathlib.Algebra.Order.Ring.Int
import Mathlib.Algebra.BigOperators.Group.List.Basic
import Mathlib.Tactic.Linarith

/-!
# Splitting an amount by weights

`shares amount denom left ws` splits an amount over weights: each entry gets the
rounded part `amount * w / denom`, except for the last, which takes what is
left. With weights of at most `denom` in total the last part is no exception:
nobody gets less than the rounded part (`floor_le_shares`), so no part is
negative, and the parts always add up to the whole (`sum_shares`).
-/

namespace Split

/-- The rounded part of a weight. -/
def part (amount denom : Int) (w : Nat) : Int := (amount * w).tdiv denom

/-- The parts of a split with `left` still to be given. -/
def shares (amount denom : Int) : Int → List Nat → List Int
  | _, [] => []
  | left, [_] => [left]
  | left, w :: w' :: ws =>
      part amount denom w :: shares amount denom (left - part amount denom w) (w' :: ws)

variable {amount denom left : Int} {w : Nat} {ws : List Nat}

theorem sum_shares (h : ws ≠ []) : (shares amount denom left ws).sum = left := by
  induction ws generalizing left with
  | nil => exact absurd rfl h
  | cons w ws ih =>
      cases ws with
      | nil => simp [shares]
      | cons w' ws =>
          rw [shares, List.sum_cons, ih (by simp)]
          omega

@[simp] theorem length_shares : (shares amount denom left ws).length = ws.length := by
  induction ws generalizing left with
  | nil => rfl
  | cons w ws ih =>
      cases ws with
      | nil => rfl
      | cons w' ws => simp [shares, ih]

theorem part_nonneg (ha : 0 ≤ amount) (hd : 0 < denom) : 0 ≤ part amount denom w := by
  have hw : 0 ≤ amount * (w : Int) := Int.mul_nonneg ha (by omega)
  exact Int.tdiv_nonneg hw hd.le

theorem part_mul_le (ha : 0 ≤ amount) (hd : 0 < denom) :
    part amount denom w * denom ≤ amount * w := by
  have hw : 0 ≤ amount * (w : Int) := Int.mul_nonneg ha (by omega)
  rw [part, Int.tdiv_eq_ediv_of_nonneg hw]
  exact Int.ediv_mul_le _ hd.ne'

/-- Whatever the sign of the amount, rounding adds less than one unit. -/
theorem part_mul_lt (hd : 0 < denom) : part amount denom w * denom < amount * w + denom := by
  have hsplit := Int.tdiv_mul_add_tmod (amount * w) denom
  have hmod : -denom < (amount * (w : Int)).tmod denom := by
    have := Int.lt_tmod_of_pos (amount * (w : Int)) hd
    omega
  rw [part]
  omega

theorem part_le_left (ha : 0 ≤ amount) (hd : 0 < denom) (h : amount * w ≤ left * denom) :
    part amount denom w ≤ left :=
  le_of_mul_le_mul_right ((part_mul_le ha hd).trans h) hd

/-- If the weights still to come are covered by what is left, every entry gets
at least its rounded part. -/
theorem floor_le_shares_of_le (ha : 0 ≤ amount) (hd : 0 < denom)
    (h : amount * (ws.sum : Nat) ≤ left * denom) :
    List.Forall₂ (fun w x => part amount denom w ≤ x) ws (shares amount denom left ws) := by
  induction ws generalizing left with
  | nil => exact .nil
  | cons w ws ih =>
      cases ws with
      | nil => exact .cons (part_le_left ha hd (by simpa using h)) .nil
      | cons w' ws =>
          refine .cons le_rfl (ih ?_)
          have hpart : part amount denom w * denom ≤ amount * w := part_mul_le ha hd
          rw [List.sum_cons, Nat.cast_add, mul_add] at h
          rw [sub_mul]
          omega

/-- No entry of a whole split is short-changed. -/
theorem floor_le_shares (ha : 0 ≤ amount) (hd : 0 < denom) (h : (ws.sum : Nat) ≤ denom) :
    List.Forall₂ (fun w x => part amount denom w ≤ x) ws (shares amount denom amount ws) :=
  floor_le_shares_of_le ha hd (Int.mul_le_mul_of_nonneg_left h ha)

theorem shares_nonneg (ha : 0 ≤ amount) (hd : 0 < denom) (h : (ws.sum : Nat) ≤ denom) :
    ∀ x ∈ shares amount denom amount ws, 0 ≤ x := by
  intro x hx
  obtain ⟨i, hi, rfl⟩ := List.mem_iff_getElem.mp hx
  have hfloor := (List.forall₂_iff_get.mp (floor_le_shares ha hd h)).2 i
    (by simpa using hi) hi
  exact (part_nonneg ha hd).trans hfloor

/-- Rounding is towards zero, so that a debt is split as the amount is. -/
theorem shares_neg :
    shares (-amount) denom (-left) ws = (shares amount denom left ws).map fun x => -x := by
  induction ws generalizing left with
  | nil => rfl
  | cons w ws ih =>
      cases ws with
      | nil => rfl
      | cons w' ws =>
          have hpart : part (-amount) denom w = -part amount denom w := by
            unfold part
            rw [neg_mul, Int.neg_tdiv]
          have hleft : -left - -part amount denom w = -(left - part amount denom w) := by omega
          rw [shares, hpart, hleft, ih]
          rfl

theorem shares_nonpos (ha : amount ≤ 0) (hd : 0 < denom) (h : (ws.sum : Nat) ≤ denom) :
    ∀ x ∈ shares amount denom amount ws, x ≤ 0 := by
  intro x hx
  have hneg : -x ∈ shares (-amount) denom (-amount) ws := by
    rw [shares_neg]
    exact List.mem_map_of_mem hx
  have hx0 := shares_nonneg (neg_nonneg.mpr ha) hd h _ hneg
  exact neg_nonneg.mp hx0

end Split
