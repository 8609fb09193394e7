import Mathlib.Data.List.Basic
import Mathlib.Order.Nat

/-!
# Resuming a pass over a log

A log is a list whose entries carry strictly increasing keys. A pass over the entries
after `lo` may stop at a key `k` of the log and be resumed there: the entries after `lo`
are those up to `k` and then those after `k`, and the last key seen is the same either
way (`lastKey_resumed`).
-/

namespace Checkpoint

variable {α : Type} {key : α → Nat} {l m : List α} {lo k hi start : Nat}

/-- The keys increase along the list. -/
def Increasing (key : α → Nat) (l : List α) : Prop := l.Pairwise fun x y => key x < key y

def after (key : α → Nat) (lo : Nat) (l : List α) : List α := l.filter fun x => lo < key x

def upTo (key : α → Nat) (hi : Nat) (l : List α) : List α := l.filter fun x => key x ≤ hi

/-- The key of the last entry, or where the pass started. -/
def lastKey (key : α → Nat) (l : List α) (start : Nat) : Nat := (l.getLast?.map key).getD start

theorem Increasing.filter (h : Increasing key l) (p : α → Bool) : Increasing key (l.filter p) :=
  List.Pairwise.filter p h

theorem upTo_append : upTo key hi (l ++ m) = upTo key hi l ++ upTo key hi m :=
  List.filter_append l m

theorem upTo_upTo (h : k ≤ hi) : upTo key hi (upTo key k l) = upTo key k l := by
  unfold upTo
  rw [List.filter_filter]
  refine List.filter_congr fun x _ => ?_
  rw [Bool.eq_iff_iff]
  simp only [Bool.and_eq_true, decide_eq_true_eq]
  exact ⟨fun hx => hx.2, fun hx => ⟨hx.trans h, hx⟩⟩

/-- A key splits an increasing list in two. -/
theorem upTo_append_after (h : Increasing key l) : upTo key k l ++ after key k l = l := by
  induction l with
  | nil => rfl
  | cons x l ih =>
      obtain ⟨hx, hl⟩ := List.pairwise_cons.mp h
      unfold upTo after at ih ⊢
      by_cases hle : key x ≤ k
      · rw [List.filter_cons_of_pos (by simpa using hle),
          List.filter_cons_of_neg (by simpa using hle), List.cons_append, ih hl]
      · -- every later key is above `k` too
        have habove : ∀ y ∈ x :: l, k < key y := by
          intro y hy
          rcases List.mem_cons.mp hy with rfl | hy
          · exact Nat.lt_of_not_le hle
          · exact (Nat.lt_of_not_le hle).trans (hx y hy)
        rw [List.filter_eq_nil_iff.mpr fun y hy => by simpa using habove y hy,
          List.filter_eq_self.mpr fun y hy => by simpa using habove y hy, List.nil_append]

theorem after_after (h : lo ≤ k) : after key k (after key lo l) = after key k l := by
  unfold after
  rw [List.filter_filter]
  refine List.filter_congr fun x _ => ?_
  rw [Bool.eq_iff_iff]
  simp only [Bool.and_eq_true, decide_eq_true_eq]
  exact ⟨fun hx => hx.1, fun hx => ⟨hx, h.trans_lt hx⟩⟩

/-- The entries after `lo`, stopped at `k` and resumed there. -/
theorem after_resumed (h : Increasing key l) (hlo : lo ≤ k) :
    after key lo l = upTo key k (after key lo l) ++ after key k l := by
  have hsplit := upTo_append_after (k := k) (h.filter fun x => lo < key x)
  rw [← after_after hlo]
  exact hsplit.symm

theorem lastKey_append : lastKey key (l ++ m) start = lastKey key m (lastKey key l start) := by
  unfold lastKey
  rw [List.getLast?_append]
  cases m.getLast? <;> rfl

/-- A pass up to a key of the log has that key as its last. -/
theorem lastKey_upTo (h : Increasing key l) (hlo : lo ≤ k) (hk : k ∈ l.map key) :
    lastKey key (upTo key k (after key lo l)) lo = k := by
  obtain ⟨x, hx, rfl⟩ := List.mem_map.mp hk
  have hsorted : Increasing key (upTo key (key x) (after key lo l)) := (h.filter _).filter _
  have hle : ∀ y ∈ upTo key (key x) (after key lo l), key y ≤ key x := fun y hy => by
    simpa using (List.mem_filter.mp hy).2
  rcases hlo.eq_or_lt with rfl | hlt
  · -- nothing is both after the key and up to it
    have hnil : upTo key (key x) (after key (key x) l) = [] := by
      refine List.filter_eq_nil_iff.mpr fun y hy => ?_
      have := (List.mem_filter.mp hy).2
      simpa using this
    rw [hnil]
    rfl
  · have hmem : x ∈ upTo key (key x) (after key lo l) :=
      List.mem_filter.mpr ⟨List.mem_filter.mpr ⟨hx, by simpa using hlt⟩, by simp⟩
    generalize upTo key (key x) (after key lo l) = m at hsorted hle hmem
    rcases List.eq_nil_or_concat m with rfl | ⟨m', y, rfl⟩
    · cases hmem
    · rw [List.concat_eq_append] at hsorted hle hmem ⊢
      rw [lastKey, List.getLast?_concat, Option.map_some, Option.getD_some]
      rcases List.mem_append.mp hmem with hold | hlast
      · have hlt := (List.pairwise_append.mp hsorted).2.2 x hold y (List.mem_singleton.mpr rfl)
        exact absurd (hle y (List.mem_append_right _ (List.mem_singleton.mpr rfl)))
          (Nat.not_le.mpr hlt)
      · rw [List.mem_singleton.mp hlast]

/-- Resuming a pass at a key of the log leaves its last key as it is. -/
theorem lastKey_resumed (h : Increasing key l) (hlo : lo ≤ k) (hk : k ∈ l.map key) :
    lastKey key (upTo key k (after key lo l) ++ m) lo = lastKey key m k := by
  rw [lastKey_append, lastKey_upTo h hlo hk]

/-- There are no more entries than keys. -/
theorem length_le_of_increasing (h : Increasing key l) (hlo : ∀ x ∈ l, lo < key x)
    (hhi : ∀ x ∈ l, key x ≤ hi) : l.length ≤ hi - lo := by
  induction l generalizing lo with
  | nil => exact Nat.zero_le _
  | cons x l ih =>
      obtain ⟨hx, hl⟩ := List.pairwise_cons.mp h
      have hrest := ih hl hx fun y hy => hhi y (List.mem_cons_of_mem x hy)
      have hfirst := hlo x List.mem_cons_self
      have hlast := hhi x List.mem_cons_self
      rw [List.length_cons]
      omega

end Checkpoint
