import Mathlib.Logic.Function.Basic

/-!
# Forests of parent pointers

A partial function `parent` sends each node to the one above it. `climb parent n a`
is the node `n` hops above `a`, if there is one. A bound on the number of hops
excludes cycles (`climb_ne_self`), and a new edge keeps the bound if no chain through
it gets too long (`climb_link`).
-/

namespace Forest

variable {ι : Type} {parent : ι → Option ι} {a b c p : ι} {m n : Nat}

/-- The node `n` hops above `a`. -/
def climb (parent : ι → Option ι) : Nat → ι → Option ι
  | 0, a => some a
  | n + 1, a => (parent a).bind (climb parent n)

@[simp] theorem climb_zero : climb parent 0 a = some a := rfl

theorem climb_succ : climb parent (n + 1) a = (parent a).bind (climb parent n) := rfl

theorem climb_add : climb parent (m + n) a = (climb parent m a).bind (climb parent n) := by
  induction m generalizing a with
  | zero => simp
  | succ m ih =>
      rw [Nat.succ_add, climb_succ, climb_succ]
      cases parent a with
      | none => rfl
      | some q => simpa using ih

/-- The last hop of a climb. -/
theorem climb_succ_last (h : climb parent (n + 1) a = some c) :
    ∃ b, climb parent n a = some b ∧ parent b = some c := by
  rw [climb_add, Option.bind_eq_some_iff] at h
  obtain ⟨b, hb, hlast⟩ := h
  refine ⟨b, hb, ?_⟩
  cases hparent : parent b with
  | none => simp [climb, hparent] at hlast
  | some q => simpa [climb, hparent] using hlast

/-- Above the end of a chain there is nothing. -/
theorem climb_eq_none_of_le (hnone : climb parent m a = none) (hle : m ≤ n) :
    climb parent n a = none := by
  obtain ⟨k, rfl⟩ := Nat.exists_eq_add_of_le hle
  rw [climb_add, hnone]
  rfl

theorem climb_repeat (hself : climb parent n a = some a) (k : Nat) :
    climb parent (k * n) a = some a := by
  induction k with
  | zero => simp
  | succ k ih => rw [Nat.succ_mul, climb_add, ih, Option.bind_some, hself]

/-- A node of a chain that ends is not above itself. -/
theorem climb_ne_self (hnone : climb parent m a = none) (hn : 0 < n) :
    climb parent n a ≠ some a := by
  intro hself
  have hlong := climb_eq_none_of_le hnone (Nat.le_mul_of_pos_right m hn)
  rw [climb_repeat hself m] at hlong
  cases hlong

/-! ## Heights -/

/-- There are exactly `n` nodes above `a`. -/
def Height (parent : ι → Option ι) (a : ι) (n : Nat) : Prop :=
  climb parent n a ≠ none ∧ climb parent (n + 1) a = none

theorem height_zero (h : parent a = none) : Height parent a 0 :=
  ⟨Option.some_ne_none a, by rw [climb_succ, h, Option.bind_none]⟩

theorem height_succ_iff (h : parent a = some p) : Height parent a (n + 1) ↔ Height parent p n := by
  rw [Height, Height, climb_succ, climb_succ, h, Option.bind_some, Option.bind_some]

theorem Height.unique (h : Height parent a m) (h' : Height parent a n) : m = n := by
  rcases Nat.lt_trichotomy m n with hlt | rfl | hgt
  · exact absurd (climb_eq_none_of_le h.2 hlt) h'.1
  · rfl
  · exact absurd (climb_eq_none_of_le h'.2 hgt) h.1

/-- A chain that ends has a height. -/
theorem exists_height (h : climb parent n a = none) : ∃ m, m < n ∧ Height parent a m := by
  induction n generalizing a with
  | zero => cases h
  | succ n ih =>
      cases hparent : parent a with
      | none => exact ⟨0, Nat.succ_pos n, height_zero hparent⟩
      | some p =>
          rw [climb_succ, hparent, Option.bind_some] at h
          obtain ⟨m, hlt, hm⟩ := ih h
          exact ⟨m + 1, Nat.succ_lt_succ hlt, (height_succ_iff hparent).mpr hm⟩

theorem Height.lt_iff (h : Height parent a m) : m < n ↔ climb parent n a = none := by
  constructor
  · exact climb_eq_none_of_le h.2
  · intro hnone
    by_contra hle
    exact h.1 (climb_eq_none_of_le hnone (Nat.le_of_not_lt hle))

section Links

variable [DecidableEq ι]

/-- Where `c` is not passed, an edge from `c` is not used. -/
theorem climb_update_of_avoids (h : ∀ k, climb parent k a ≠ some c) :
    climb (Function.update parent c (some p)) n a = climb parent n a := by
  induction n generalizing a with
  | zero => rfl
  | succ n ih =>
      have hne : a ≠ c := fun heq => h 0 (by simp [heq])
      rw [climb_succ, climb_succ, Function.update_of_ne hne]
      cases hparent : parent a with
      | none => rfl
      | some q =>
          exact ih fun k hk => h (k + 1) (by rw [climb_succ, hparent]; exact hk)

/-- A climb after a new edge from `c` to `p` does not use it, or uses it once. -/
theorem climb_link (havoids : ∀ k, climb parent k p ≠ some c)
    (h : climb (Function.update parent c (some p)) n a = some b) :
    climb parent n a = some b ∨
      ∃ i j, n = i + 1 + j ∧ climb parent i a = some c ∧ climb parent j p = some b := by
  induction n generalizing a with
  | zero => exact .inl h
  | succ n ih =>
      rw [climb_succ] at h
      by_cases heq : a = c
      · subst heq
        rw [Function.update_self, Option.bind_some, climb_update_of_avoids havoids] at h
        exact .inr ⟨0, n, by omega, rfl, h⟩
      · rw [Function.update_of_ne heq, Option.bind_eq_some_iff] at h
        obtain ⟨q, hq, hrest⟩ := h
        rcases ih hrest with hold | ⟨i, j, hn, hi, hj⟩
        · exact .inl (by rw [climb_succ, hq, Option.bind_some, hold])
        · exact .inr ⟨i + 1, j, by omega, by rw [climb_succ, hq, Option.bind_some, hi], hj⟩

/-- A new edge keeps a bound on the hops, if no chain through it gets too long. -/
theorem climb_link_eq_none (hbound : ∀ a, climb parent n a = none)
    (havoids : ∀ k, climb parent k p ≠ some c)
    (hshort : ∀ a i j b, climb parent i a = some c → climb parent j p = some b → i + 1 + j < n) :
    climb (Function.update parent c (some p)) n a = none := by
  by_contra hsome
  obtain ⟨b, hb⟩ := Option.ne_none_iff_exists'.mp hsome
  rcases climb_link havoids hb with hold | ⟨i, j, hn, hi, hj⟩
  · simp [hbound a] at hold
  · have := hshort a i j b hi hj
    omega

end Links

end Forest
