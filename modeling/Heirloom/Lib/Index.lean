import Mathlib.Data.List.Count
import Mathlib.Logic.Function.Basic

/-!
# Indexes kept by hand

A table whose entries belong to at most one key each, and an index that lists
the entries of every key. `Mirrors index holder` says that the index lists each
entry exactly once, under its key, and nowhere else. The rules say which update
of the index goes with a change of the table: an entry is filed
(`Mirrors.file`), taken off (`Mirrors.remove`) or moved (`Mirrors.move`). `Fits`
bounds what the index lists under each key, and is kept by the same updates if
there is room where an entry is filed.
-/

namespace MirrorIndex

variable {κ ι : Type} [DecidableEq κ] [DecidableEq ι]

/-- The index lists every entry once under the key that holds it, and under no other. -/
def Mirrors (index : κ → List ι) (holder : ι → Option κ) : Prop :=
  ∀ k n, (index k).count n = if holder n = some k then 1 else 0

/-- The list without the entry `n`. -/
def without (n : ι) (ns : List ι) : List ι := ns.filter (· ≠ n)

theorem count_without {n m : ι} {ns : List ι} :
    (without n ns).count m = if m = n then 0 else ns.count m := by
  unfold without
  split
  · next h => exact List.count_eq_zero_of_not_mem (by simp [h])
  · next h => exact List.count_filter (by simpa using h)

namespace Mirrors

variable {index : κ → List ι} {holder holder' : ι → Option κ} {k k' : κ} {n : ι}

theorem congr (h : Mirrors index holder) (hholder : ∀ n, holder' n = holder n) :
    Mirrors index holder' := fun k n => by rw [h k n, hholder n]

/-- A new entry is appended under its key. -/
theorem file (h : Mirrors index holder) (hn : holder n = none) :
    Mirrors (Function.update index k (index k ++ [n])) (Function.update holder n (some k)) := by
  intro j m
  by_cases hm : m = n
  · subst hm
    by_cases hj : j = k
    · subst hj
      simp [h j m, hn]
    · simp [h j m, hn, hj, Ne.symm hj]
  · by_cases hj : j = k
    · subst hj
      simp [h j m, hm, Ne.symm hm]
    · simp [h j m, hm, hj]

/-- An entry is taken off under the key that holds it, if any does. -/
theorem remove (h : Mirrors index holder) (hn : ∀ j, holder n = some j → j = k) :
    Mirrors (Function.update index k (without n (index k))) (Function.update holder n none) := by
  intro j m
  by_cases hm : m = n
  · subst hm
    by_cases hj : j = k
    · subst hj
      simp [count_without]
    · have hnone : holder m ≠ some j := fun he => hj (hn j he)
      simp [h j m, hj, hnone]
  · by_cases hj : j = k
    · subst hj
      simp [count_without, h j m, hm]
    · simp [h j m, hm, hj]

/-- An entry is taken off under one key and appended under another. -/
theorem move (h : Mirrors index holder) (hn : holder n = some k) (hne : k ≠ k') :
    Mirrors (Function.update (Function.update index k (without n (index k))) k' (index k' ++ [n]))
      (Function.update holder n (some k')) := by
  have hoff := h.remove (k := k) (n := n) fun j hj => Option.some.inj (hj.symm.trans hn)
  have hon := hoff.file (k := k') (Function.update_self n none holder)
  rwa [Function.update_of_ne hne.symm, Function.update_idem] at hon

end Mirrors

/-! ## Bounded indexes -/

/-- At most `limit` entries are listed under each key; a limit of zero is none. -/
def Fits (limit : Nat) (index : κ → List ι) : Prop :=
  limit = 0 ∨ ∀ k, (index k).length ≤ limit

/-- One more entry can be listed. -/
def Room (limit : Nat) (ns : List ι) : Prop := limit = 0 ∨ ns.length < limit

namespace Fits

variable {index : κ → List ι} {limit : Nat} {k k' : κ} {n : ι}

omit [DecidableEq ι] in
theorem update {ns : List ι} (h : Fits limit index) (hns : limit = 0 ∨ ns.length ≤ limit) :
    Fits limit (Function.update index k ns) := by
  obtain hzero | hall := h
  · exact .inl hzero
  · refine hns.imp_right fun hle j => ?_
    by_cases hj : j = k
    · subst hj
      simpa using hle
    · simpa [hj] using hall j

omit [DecidableEq ι] in
theorem file (h : Fits limit index) (hroom : Room limit (index k)) :
    Fits limit (Function.update index k (index k ++ [n])) :=
  h.update (hroom.imp_right fun hlt => by simpa [Nat.succ_le_iff] using hlt)

theorem remove (h : Fits limit index) :
    Fits limit (Function.update index k (without n (index k))) :=
  h.update (h.imp_right fun hall => Nat.le_trans (List.length_filter_le _ _) (hall k))

theorem move (h : Fits limit index) (hne : k ≠ k') (hroom : Room limit (index k')) :
    Fits limit (Function.update (Function.update index k (without n (index k))) k'
      (index k' ++ [n])) := by
  have hon := (h.remove (k := k) (n := n)).file (k := k') (n := n)
    (by rwa [Function.update_of_ne hne.symm])
  rwa [Function.update_of_ne hne.symm] at hon

end Fits

end MirrorIndex
