import Mathlib.Order.OrderDual
import Heirloom.Lib.ExchangeSort

/-!
# Bubble sort

Two nested loops over a list: a pass compares neighbours from the front and exchanges them if the
first has the greater key, and each pass stops one entry earlier than the one before.

Results:
1. `sort_perm`, `sort_sorted`: the result is a permutation with ascending keys.
2. `sort_stable`: entries with equal keys stay in their order.
-/

namespace BubbleSort

open ExchangeSort OrderDual

variable {α β : Type} [LinearOrder β] {key : α → β} {l : List α} {i j k m n : Nat} {x y : α}

/-- Exchanges the entries at `j` and `j + 1` if the first has the greater key. -/
def swapAt (key : α → β) (j : Nat) (l : List α) : List α :=
  exchange (fun x => toDual (key x)) j (j + 1) l

/-- The first `m` rounds of a pass. -/
def pass (key : α → β) : Nat → List α → List α
  | 0, l => l
  | m + 1, l => swapAt key m (pass key m l)

/-- The first `n` passes over a list of length `len`. -/
def passes (key : α → β) (len : Nat) : Nat → List α → List α
  | 0, l => l
  | n + 1, l => pass key (len - (n + 1)) (passes key len n l)

def sort (key : α → β) (l : List α) : List α := passes key l.length l.length l

/-! ## One comparison -/

theorem exists_append (hx : l[j]? = some x) (hy : l[j + 1]? = some y) :
    ∃ front back, front.length = j ∧ l = front ++ x :: y :: back := by
  obtain ⟨hj, rfl⟩ := List.getElem?_eq_some_iff.mp hx
  obtain ⟨hj', rfl⟩ := List.getElem?_eq_some_iff.mp hy
  refine ⟨l.take j, l.drop (j + 2), List.length_take_of_le (Nat.le_of_lt hj), ?_⟩
  rw [← List.drop_eq_getElem_cons hj', ← List.drop_eq_getElem_cons hj, List.take_append_drop]

theorem swapAt_cases (key : α → β) (j : Nat) (l : List α) : swapAt key j l = l ∨
    ∃ front x y back, l = front ++ x :: y :: back ∧ key y < key x ∧
      swapAt key j l = front ++ y :: x :: back := by
  unfold swapAt exchange
  split
  · rename_i x y hx hy
    split
    · rename_i hlt
      obtain ⟨front, back, rfl, rfl⟩ := exists_append hx hy
      refine .inr ⟨front, x, y, back, rfl, toDual_lt_toDual.mp hlt, ?_⟩
      rw [List.set_append_right _ _ (Nat.le_refl _), Nat.sub_self, List.set_cons_zero,
        List.set_append_right _ _ (Nat.le_succ _), Nat.succ_sub (Nat.le_refl _),
        Nat.sub_self]
      rfl
    · exact .inl rfl
  · exact .inl rfl

theorem swapAt_perm : (swapAt key j l).Perm l := exchange_perm

/-- Entries with equal keys are never exchanged. -/
theorem swapAt_stable [DecidableEq β] (b : β) :
    (swapAt key j l).filter (fun z => key z = b) = l.filter fun z => key z = b := by
  obtain hsame | ⟨front, x, y, back, rfl, hlt, hswap⟩ := swapAt_cases key j l
  · rw [hsame]
  · rw [hswap, List.filter_append, List.filter_append]
    congr 1
    by_cases hx : key x = b
    · have hy : ¬ key y = b := fun hy => ne_of_lt hlt (hy.trans hx.symm)
      simp [hx, hy]
    · simp [List.filter_cons, hx]

/-- No entry before position `m` has a greater key than the one at `m`. -/
def Top (key : α → β) (m : Nat) (l : List α) : Prop :=
  ∀ i x y, i < m → l[i]? = some x → l[m]? = some y → key x ≤ key y

/-- From position `k` on, no entry has a smaller key than one before it. -/
def Settled (key : α → β) (k : Nat) (l : List α) : Prop :=
  ∀ j, k ≤ j → Top key j l

theorem Top.swapAt (h : Top key j l) : Top key (j + 1) (swapAt key j l) := by
  intro i x y hi hx hy
  unfold BubbleSort.swapAt exchange at hx hy
  split at hx
  · rename_i a b ha hb
    obtain ⟨hj, -⟩ := List.getElem?_eq_some_iff.mp ha
    obtain ⟨hj', -⟩ := List.getElem?_eq_some_iff.mp hb
    rw [ha, hb] at hy
    dsimp only at hy
    split at hx
    · rename_i hlt
      rw [if_pos hlt, List.getElem?_set_self (by simpa using hj')] at hy
      rw [List.getElem?_set_ne (Nat.ne_of_gt hi)] at hx
      obtain rfl := Option.some.inj hy
      rcases Nat.eq_or_lt_of_le (Nat.le_of_lt_succ hi) with rfl | hij
      · rw [List.getElem?_set_self hj] at hx
        obtain rfl := Option.some.inj hx
        exact le_of_lt (toDual_lt_toDual.mp hlt)
      · rw [List.getElem?_set_ne (Nat.ne_of_gt hij)] at hx
        exact h i x _ hij hx ha
    · rename_i hle
      rw [if_neg hle, hb] at hy
      obtain rfl := Option.some.inj hy
      have hab : key a ≤ key b := le_of_not_gt fun hlt => hle (toDual_lt_toDual.mpr hlt)
      rcases Nat.eq_or_lt_of_le (Nat.le_of_lt_succ hi) with rfl | hij
      · rw [ha] at hx
        obtain rfl := Option.some.inj hx
        exact hab
      · exact le_trans (h i x a hij hx ha) hab
  · rename_i hnone
    split at hy
    · rename_i a b ha hb
      exact absurd hb (hnone a b ha)
    · obtain ⟨hj', -⟩ := List.getElem?_eq_some_iff.mp hy
      exact absurd hy (hnone _ _ (List.getElem?_eq_getElem (Nat.lt_of_succ_lt hj')))

theorem Settled.swapAt (h : Settled key k l) (hj : j + 1 < k) :
    Settled key k (swapAt key j l) := by
  intro n hn i x y hi hx hy
  have hy' : l[n]? = some y := by
    rcases exchange_getElem? hy with hy | ⟨rfl, -⟩ | ⟨rfl, -⟩
    · exact hy
    · exact absurd (Nat.lt_of_succ_lt hj) (Nat.not_lt.mpr hn)
    · exact absurd hj (Nat.not_lt.mpr hn)
  rcases exchange_getElem? hx with hx | ⟨-, hx⟩ | ⟨-, hx⟩
  · exact h n hn i x y hi hx hy'
  · exact h n hn (j + 1) x y (Nat.lt_of_lt_of_le hj hn) hx hy'
  · exact h n hn j x y (Nat.lt_of_lt_of_le (Nat.lt_of_succ_lt hj) hn) hx hy'

/-! ## Passes -/

theorem pass_perm : (pass key m l).Perm l := by
  induction m with
  | zero => exact .refl l
  | succ m ih => exact swapAt_perm.trans ih

theorem passes_perm {len : Nat} : (passes key len n l).Perm l := by
  induction n with
  | zero => exact .refl l
  | succ n ih => exact pass_perm.trans ih

theorem pass_stable [DecidableEq β] (b : β) :
    (pass key m l).filter (fun z => key z = b) = l.filter fun z => key z = b := by
  induction m with
  | zero => rfl
  | succ m ih => exact (swapAt_stable b).trans ih

theorem passes_stable [DecidableEq β] {len : Nat} (b : β) :
    (passes key len n l).filter (fun z => key z = b) = l.filter fun z => key z = b := by
  induction n with
  | zero => rfl
  | succ n ih => exact (pass_stable b).trans ih

theorem pass_top (key : α → β) (m : Nat) (l : List α) : Top key m (pass key m l) := by
  induction m with
  | zero => exact fun i _ _ hi => absurd hi (Nat.not_lt_zero i)
  | succ m ih => exact ih.swapAt

theorem Settled.pass (h : Settled key k l) (hm : m < k) : Settled key k (pass key m l) := by
  induction m with
  | zero => exact h
  | succ m ih => exact (ih (Nat.lt_of_succ_lt hm)).swapAt hm

/-- A pass settles one position more. -/
theorem Settled.pass_succ (h : Settled key (m + 1) l) :
    Settled key m (BubbleSort.pass key m l) := by
  intro j hj
  rcases Nat.eq_or_lt_of_le hj with rfl | hlt
  · exact pass_top key _ l
  · exact h.pass (Nat.lt_succ_self m) j hlt

theorem passes_settled (hn : n ≤ l.length) :
    Settled key (l.length - n) (passes key l.length n l) := by
  induction n with
  | zero =>
      intro j hj i x y _ _ hy
      obtain ⟨hlt, -⟩ := List.getElem?_eq_some_iff.mp hy
      exact absurd hlt (Nat.not_lt.mpr hj)
  | succ n ih =>
      have h := ih (Nat.le_of_succ_le hn)
      have hpred : l.length - n = l.length - (n + 1) + 1 := by omega
      rw [hpred] at h
      exact h.pass_succ

/-! ## The sort -/

theorem sort_perm : (sort key l).Perm l := passes_perm

theorem sort_sorted : (sort key l).Pairwise fun x y => key x ≤ key y := by
  have hsettled : Settled key 0 (sort key l) := by
    have h : Settled key (l.length - l.length) (sort key l) := passes_settled (Nat.le_refl _)
    rwa [Nat.sub_self] at h
  refine List.pairwise_iff_getElem.mpr fun i j hi hj hij => ?_
  exact hsettled j (Nat.zero_le j) i _ _ hij (List.getElem?_eq_getElem hi)
    (List.getElem?_eq_getElem hj)

theorem sort_stable [DecidableEq β] (b : β) :
    (sort key l).filter (fun z => key z = b) = l.filter fun z => key z = b :=
  passes_stable b

end BubbleSort
