import Mathlib.Order.Lattice
import Mathlib.Order.Defs.LinearOrder
import Mathlib.Data.List.Basic

/-!
# Exchange sort

Two nested loops over a list: the pass for position `i` compares the entry there with
each entry after it and exchanges the two if the later one scores higher. The result
is a permutation of the list (`sort_perm`) with descending scores (`sort_descending`),
so that its first entries score at least as high as what comes after them
(`score_le_of_mem_take`).
-/

namespace ExchangeSort

variable {α β : Type} [LinearOrder β] {score : α → β} {l : List α} {i j m n len : Nat} {x y : α}

/-- Exchanges the entries at `i` and `j` if the one at `j` scores higher. -/
def exchange (score : α → β) (i j : Nat) (l : List α) : List α :=
  match l[i]?, l[j]? with
  | some x, some y => if score x < score y then (l.set i y).set j x else l
  | _, _ => l

/-- The first `m` rounds of the pass for position `i`. -/
def pass (score : α → β) (i : Nat) : Nat → List α → List α
  | 0, l => l
  | m + 1, l => exchange score i (i + 1 + m) (pass score i m l)

/-- The first `n` passes over a list of length `len`. -/
def passes (score : α → β) (len : Nat) : Nat → List α → List α
  | 0, l => l
  | n + 1, l => pass score n (len - (n + 1)) (passes score len n l)

def sort (score : α → β) (l : List α) : List α := passes score l.length l.length l

/-! ## Permutation -/

theorem exchange_perm : (exchange score i j l).Perm l := by
  unfold exchange
  split
  · next x y hx hy =>
    split
    · obtain ⟨hi, rfl⟩ := List.getElem?_eq_some_iff.mp hx
      obtain ⟨hj, rfl⟩ := List.getElem?_eq_some_iff.mp hy
      exact List.set_set_perm hi hj
    · exact .refl l
  · exact .refl l

theorem pass_perm : (pass score i m l).Perm l := by
  induction m with
  | zero => exact .refl l
  | succ m ih => exact exchange_perm.trans ih

theorem passes_perm : (passes score len n l).Perm l := by
  induction n with
  | zero => exact .refl l
  | succ n ih => exact pass_perm.trans ih

theorem sort_perm : (sort score l).Perm l := passes_perm

/-! ## Order -/

/-- No entry after position `i` and before position `n` scores higher than the one at `i`. -/
def Leads (score : α → β) (i n : Nat) (l : List α) : Prop :=
  ∀ k x y, i < k → k < n → l[i]? = some x → l[k]? = some y → score y ≤ score x

/-- An exchange moves entries among the positions `i` and `j` only. -/
theorem exchange_getElem? {k : Nat} (h : (exchange score i j l)[k]? = some x) :
    l[k]? = some x ∨ (k = i ∧ l[j]? = some x) ∨ (k = j ∧ l[i]? = some x) := by
  unfold exchange at h
  split at h
  · next a b ha hb =>
    split at h
    · rw [List.getElem?_set] at h
      split at h
      · next hkj =>
        split at h
        · exact .inr (.inr ⟨hkj.symm, by rw [ha, h]⟩)
        · cases h
      · rw [List.getElem?_set] at h
        split at h
        · next hki =>
          split at h
          · exact .inr (.inl ⟨hki.symm, by rw [hb, h]⟩)
          · cases h
        · exact .inl h
    · exact .inl h
  · exact .inl h

/-- An exchange after a position that leads all others leaves it leading. -/
theorem Leads.exchange_of_lt {a : Nat} (h : Leads score a l.length l) (hai : a < i) (haj : a < j) :
    Leads score a l.length (exchange score i j l) := by
  intro k x y hk hlt hx hy
  have hx' : l[a]? = some x := by
    rcases exchange_getElem? hx with hx | ⟨rfl, -⟩ | ⟨rfl, -⟩
    · exact hx
    · exact absurd hai (Nat.lt_irrefl a)
    · exact absurd haj (Nat.lt_irrefl a)
  have hbound : ∀ {b : Nat} {z : α}, l[b]? = some z → b < l.length := fun hz =>
    (List.getElem?_eq_some_iff.mp hz).1
  rcases exchange_getElem? hy with hy | ⟨-, hy⟩ | ⟨-, hy⟩
  · exact h k x y hk hlt hx' hy
  · exact h j x y haj (hbound hy) hx' hy
  · exact h i x y hai (hbound hy) hx' hy

/-- One round: the entry at `i` leads one position more. -/
theorem Leads.exchange (h : Leads score i j l) (hij : i < j) (hj : j < l.length) :
    Leads score i (j + 1) (exchange score i j l) := by
  have hi : i < l.length := Nat.lt_trans hij hj
  intro k x y hk hlt hx hy
  simp only [ExchangeSort.exchange, List.getElem?_eq_getElem hi, List.getElem?_eq_getElem hj]
    at hx hy
  by_cases hless : score l[i] < score l[j]
  · rw [if_pos hless, List.getElem?_set_ne (Nat.ne_of_gt hij), List.getElem?_set_self hi] at hx
    rw [if_pos hless] at hy
    obtain rfl := Option.some.inj hx
    by_cases hkj : k = j
    · subst hkj
      rw [List.getElem?_set_self (by simpa using hj)] at hy
      obtain rfl := Option.some.inj hy
      exact le_of_lt hless
    · rw [List.getElem?_set_ne (Ne.symm hkj), List.getElem?_set_ne (Nat.ne_of_lt hk)] at hy
      have hkj' : k < j := Nat.lt_of_le_of_ne (Nat.le_of_lt_succ hlt) hkj
      exact le_trans (h k _ y hk hkj' (List.getElem?_eq_getElem hi) hy) (le_of_lt hless)
  · rw [if_neg hless] at hx hy
    by_cases hkj : k = j
    · subst hkj
      rw [List.getElem?_eq_getElem hi] at hx
      rw [List.getElem?_eq_getElem hj] at hy
      obtain rfl := Option.some.inj hx
      obtain rfl := Option.some.inj hy
      exact le_of_not_gt hless
    · exact h k x y hk (Nat.lt_of_le_of_ne (Nat.le_of_lt_succ hlt) hkj) hx hy

theorem pass_leads (score : α → β) (l : List α) (hm : i + 1 + m ≤ l.length) :
    Leads score i (i + 1 + m) (pass score i m l) := by
  induction m with
  | zero => exact fun k _ _ hk hlt => absurd hlt (Nat.not_lt_of_le hk)
  | succ m ih =>
      have hlt : i + 1 + m < (pass score i m l).length := by
        rw [pass_perm.length_eq]
        exact hm
      exact (ih (Nat.le_of_succ_le hm)).exchange (by omega) hlt

theorem pass_keeps {a : Nat} (hlen : l.length = len) (h : Leads score a len l) (hai : a < i) :
    Leads score a len (pass score i m l) := by
  induction m with
  | zero => exact h
  | succ m ih =>
      have hlength : (pass score i m l).length = len := pass_perm.length_eq.trans hlen
      rw [← hlength] at ih ⊢
      exact ih.exchange_of_lt hai (by omega)

/-- After `n` passes each of the first `n` positions leads all that follow it. -/
theorem passes_leads (score : α → β) (l : List α) (hn : n ≤ l.length) (hi : i < n) :
    Leads score i l.length (passes score l.length n l) := by
  induction n with
  | zero => exact absurd hi (Nat.not_lt_zero i)
  | succ n ih =>
      have hlength : (passes score l.length n l).length = l.length := passes_perm.length_eq
      by_cases heq : i = n
      · subst heq
        have hend : i + 1 + (l.length - (i + 1)) = l.length := Nat.add_sub_cancel' hn
        have hpass := pass_leads score (passes score l.length i l) (m := l.length - (i + 1))
          (i := i) (by omega)
        rw [hend] at hpass
        exact hpass
      · have hlt : i < n := Nat.lt_of_le_of_ne (Nat.le_of_lt_succ hi) heq
        exact pass_keeps hlength (ih (Nat.le_of_succ_le hn) hlt) hlt

theorem sort_descending : (sort score l).Pairwise fun x y => score y ≤ score x := by
  refine List.pairwise_iff_getElem.mpr fun i j hi hj hij => ?_
  have hlength : (sort score l).length = l.length := sort_perm.length_eq
  have hleads := passes_leads score l (Nat.le_refl l.length) (hlength ▸ hi)
  exact hleads j _ _ hij (hlength ▸ hj) (List.getElem?_eq_getElem hi) (List.getElem?_eq_getElem hj)

/-- The first entries of a descending list score at least as high as the others. -/
theorem score_le_of_mem_take (h : l.Pairwise fun x y => score y ≤ score x) (hx : x ∈ l)
    (hout : x ∉ l.take n) (hy : y ∈ l.take n) : score x ≤ score y := by
  rw [← List.take_append_drop n l] at h hx
  have hdrop : x ∈ l.drop n := (List.mem_append.mp hx).resolve_left hout
  exact (List.pairwise_append.mp h).2.2 y hy x hdrop

end ExchangeSort
