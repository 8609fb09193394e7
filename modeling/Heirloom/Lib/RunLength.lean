import Mathlib.Data.List.Basic
import Mathlib.Algebra.Order.Ring.Nat

/-!
# Run-length codes

A list as runs of equal elements, none of them longer than a cap. Packing is greedy if no run
could take one more element; a greedy packing stands for its list and no other packing of that
list has fewer runs (`Greedy.length_le`).
-/

namespace RunLength

variable {α : Type} {cap n k : Nat} {a b : α} {xs ys rest front tail : List α}
  {rs ss : List (Nat × α)}

/-- What the runs stand for. -/
def expand (rs : List (Nat × α)) : List α := rs.flatMap fun r => List.replicate r.1 r.2

/-- The number of elements that the runs stand for. -/
def total (rs : List (Nat × α)) : Nat := (rs.map (·.1)).sum

/-- No run is empty or above the cap. -/
def Valid (cap : Nat) (rs : List (Nat × α)) : Prop := ∀ r ∈ rs, 1 ≤ r.1 ∧ r.1 ≤ cap

@[simp] theorem expand_nil : expand ([] : List (Nat × α)) = [] := rfl

@[simp] theorem expand_cons {r : Nat × α} :
    expand (r :: rs) = List.replicate r.1 r.2 ++ expand rs := rfl

@[simp] theorem total_nil : total ([] : List (Nat × α)) = 0 := rfl

@[simp] theorem total_cons {r : Nat × α} : total (r :: rs) = r.1 + total rs := rfl

theorem length_expand : (expand rs).length = total rs := by
  induction rs with
  | nil => rfl
  | cons r rs ih => rw [expand_cons, List.length_append, List.length_replicate, ih, total_cons]

/-- Each run takes all it can: it is full, or another element follows. -/
inductive Greedy (cap : Nat) : List α → List (Nat × α) → Prop
  | nil : Greedy cap [] []
  | run {a : α} {n : Nat} {rest : List α} {rs : List (Nat × α)} :
      1 ≤ n → n ≤ cap → (n = cap ∨ rest.head? ≠ some a) → Greedy cap rest rs →
      Greedy cap (List.replicate n a ++ rest) ((n, a) :: rs)

theorem Greedy.expand_eq (h : Greedy cap xs rs) : expand rs = xs := by
  induction h with
  | nil => rfl
  | run _ _ _ _ ih => rw [expand_cons, ih]

theorem Greedy.valid (h : Greedy cap xs rs) : Valid cap rs := by
  induction h with
  | nil => simp [Valid]
  | run hone hcap _ _ ih => exact List.forall_mem_cons.mpr ⟨⟨hone, hcap⟩, ih⟩

theorem Greedy.eq_nil (h : Greedy cap ([] : List α) rs) : rs = [] := by
  generalize hxs : ([] : List α) = xs at h
  cases h with
  | nil => rfl
  | run hone _ _ _ =>
      have := congrArg List.length hxs
      simp only [List.length_nil, List.length_append, List.length_replicate] at this
      omega

/-- The front of a list of equal elements. -/
theorem replicate_eq_append (h : List.replicate n a = front ++ tail) :
    front = List.replicate front.length a ∧ tail = List.replicate tail.length a :=
  ⟨List.eq_replicate_iff.mpr ⟨rfl, fun _ hx =>
      List.eq_of_mem_replicate (h ▸ List.mem_append_left tail hx)⟩,
    List.eq_replicate_iff.mpr ⟨rfl, fun _ hx =>
      List.eq_of_mem_replicate (h ▸ List.mem_append_right front hx)⟩⟩

/-- A run of at most the cap at the front leaves the packing of a suffix. -/
theorem Greedy.drop_run (h : Greedy cap (List.replicate k b ++ ys) rs) (hcap : k ≤ cap) :
    ∃ front rest rs', ys = front ++ rest ∧ Greedy cap rest rs' ∧ rs.length ≤ rs'.length + 1 := by
  generalize hxs : List.replicate k b ++ ys = xs at h
  cases h with
  | nil =>
      obtain ⟨-, rfl⟩ := List.append_eq_nil_iff.mp hxs
      exact ⟨[], [], [], rfl, .nil, Nat.zero_le _⟩
  | @run a n rest rs hone hn hfull hrest =>
      rcases List.append_eq_append_iff.mp hxs with ⟨as, has, hys⟩ | ⟨cs, hcs, rfl⟩
      · -- the run ends inside the first one of the packing
        exact ⟨as, rest, rs, hys, hrest, le_rfl⟩
      · -- nothing of it is left behind the first run
        obtain ⟨hfront, hback⟩ := replicate_eq_append hcs
        rcases Nat.eq_zero_or_pos cs.length with hzero | hpos
        · obtain rfl := List.length_eq_zero_iff.mp hzero
          exact ⟨[], ys, rs, rfl, hrest, le_rfl⟩
        · exfalso
          have hlength : k = n + cs.length := by
            simpa using congrArg List.length hcs
          have hsame : a = b := by
            have hmem : a ∈ List.replicate k b := by
              rw [hcs]
              exact List.mem_append_left _ (List.mem_replicate.mpr ⟨by omega, rfl⟩)
            exact List.eq_of_mem_replicate hmem
          rcases hfull with rfl | hnext
          · omega
          · refine hnext ?_
            rw [hback, hsame, List.head?_append, List.head?_replicate, if_neg (by omega)]
            rfl

/-- No packing of a list that ends in `xs` has fewer runs than a greedy one of `xs`. -/
theorem Greedy.length_le_of_suffix (h : Greedy cap xs rs) (hs : Valid cap ss)
    (hexpand : expand ss = front ++ xs) : rs.length ≤ ss.length := by
  induction ss generalizing front xs rs with
  | nil =>
      obtain ⟨-, rfl⟩ := List.append_eq_nil_iff.mp hexpand.symm
      rw [h.eq_nil]
  | cons s ss ih =>
      obtain ⟨⟨-, hcap⟩, hs⟩ := List.forall_mem_cons.mp hs
      rw [expand_cons] at hexpand
      rcases List.append_eq_append_iff.mp hexpand with ⟨as, -, hrest⟩ | ⟨cs, hcs, rfl⟩
      · exact le_trans (ih h hs hrest) (Nat.le_succ _)
      · -- the run reaches into `xs`
        obtain ⟨-, hback⟩ := replicate_eq_append hcs
        have hshort : cs.length ≤ cap := by
          have := congrArg List.length hcs
          simp only [List.length_replicate, List.length_append] at this
          omega
        rw [hback] at h
        obtain ⟨front', rest, rs', heq, hrest, hle⟩ := h.drop_run hshort
        exact le_trans hle (Nat.succ_le_succ (ih hrest hs heq))

/-- A greedy packing is a shortest one. -/
theorem Greedy.length_le (h : Greedy cap xs rs) (hs : Valid cap ss) (hexpand : expand ss = xs) :
    rs.length ≤ ss.length :=
  h.length_le_of_suffix hs (show expand ss = [] ++ xs from hexpand)

end RunLength
