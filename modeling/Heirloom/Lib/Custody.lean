import Mathlib.Algebra.BigOperators.Group.Finset.Basic

/-!
# Custody

A custodian keeps tokens for many accounts. An account, if it is open, has a
balance in one token. `owed ids account t` is what the accounts `ids` may claim
in `t`; the lemmas say how it follows a change of one account (`owed_change`) and
the opening of a new one (`owed_open`).
-/

namespace Custody

variable {ι T : Type} [DecidableEq ι] [DecidableEq T]

/-- What an account is worth in `t`. -/
def worth (t : T) : Option (T × Int) → Int
  | some (u, x) => if u = t then x else 0
  | none => 0

/-- What the accounts may claim in `t`. -/
def owed (ids : Finset ι) (account : ι → Option (T × Int)) (t : T) : Int :=
  ∑ i ∈ ids, worth t (account i)

variable {ids : Finset ι} {account account' : ι → Option (T × Int)} {i : ι} {t : T} {x y : Int}

@[simp] theorem worth_none : worth t none = 0 := rfl

@[simp] theorem worth_self : worth t (some (t, x)) = x := if_pos rfl

theorem worth_of_ne {u : T} (h : u ≠ t) : worth t (some (u, x)) = 0 := if_neg h

omit [DecidableEq ι] in
theorem owed_congr (h : ∀ i ∈ ids, account' i = account i) :
    owed ids account' t = owed ids account t :=
  Finset.sum_congr rfl fun i hi => by rw [h i hi]

omit [DecidableEq ι] in
theorem owed_eq_zero (h : ∀ i ∈ ids, account i = none) : owed ids account t = 0 :=
  Finset.sum_eq_zero fun i hi => by rw [h i hi, worth_none]

/-- Only account `i` changes. -/
theorem owed_change (hi : i ∈ ids) (h : ∀ j, j ≠ i → account' j = account j) :
    owed ids account' t = owed ids account t - worth t (account i) + worth t (account' i) := by
  have hrest : ∑ j ∈ ids.erase i, worth t (account' j) = ∑ j ∈ ids.erase i, worth t (account j) :=
    Finset.sum_congr rfl fun j hj => by rw [h j (Finset.ne_of_mem_erase hj)]
  rw [owed, owed, ← Finset.add_sum_erase ids _ hi, ← Finset.add_sum_erase ids _ hi, hrest]
  omega

/-- Account `i` has `y` in its token instead of `x`. -/
theorem owed_balance {u : T} (hi : i ∈ ids) (hx : account i = some (u, x))
    (hy : account' i = some (u, y)) (h : ∀ j, j ≠ i → account' j = account j) :
    owed ids account' t = owed ids account t + if u = t then y - x else 0 := by
  rw [owed_change hi h, hx, hy]
  by_cases ht : u = t
  · subst ht
    simp only [worth_self, if_true]
    omega
  · rw [worth_of_ne ht, worth_of_ne ht, if_neg ht]
    omega

/-- A new account starts with nothing. -/
theorem owed_open {u : T} (hi : i ∉ ids) (hnew : account' i = some (u, 0))
    (h : ∀ j, j ≠ i → account' j = account j) :
    owed (insert i ids) account' t = owed ids account t := by
  have hzero : worth t (account' i) = 0 := by simp [hnew, worth]
  rw [owed, Finset.sum_insert hi, hzero, zero_add]
  exact owed_congr fun j hj => h j fun e => hi (e ▸ hj)

end Custody
