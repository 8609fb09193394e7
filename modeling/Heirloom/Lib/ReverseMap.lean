import Mathlib.Logic.Function.Basic

/-!
# Reverse maps over an encoding

Items belong to owners, `lists c p` saying that `c` lists the item `p`, and a map
sends the encoding of an item back to its owner. The encoding need not be injective,
so the map can answer for an item that nobody lists. `InverseOn D key lists back`: on
the items of `D` the two directions agree. The rules say exactly which updates keep
the agreement: an item is added under the free key `key p` if that key encodes no other
item of `D` (`InverseOn.add_iff`), and taken off if, in addition, the owner it is taken
from is the one that the map names (`InverseOn.drop_iff`).
-/

namespace ReverseMap

variable {C P K : Type} {D : P → Prop} {key : P → K} {lists : C → P → Prop}
  {back : K → Option C} {c : C} {p : P}

/-- On `D`, an owner lists an item exactly when the map leads from the item to it. -/
def InverseOn (D : P → Prop) (key : P → K) (lists : C → P → Prop) (back : K → Option C) : Prop :=
  ∀ p, D p → ∀ c, lists c p ↔ back (key p) = some c

/-- No other item of `D` has the encoding of `p`. -/
def Alone (D : P → Prop) (key : P → K) (p : P) : Prop := ∀ q, D q → key q = key p → q = p

namespace InverseOn

variable [DecidableEq K]

theorem add_iff (h : InverseOn D key lists back) (hfree : back (key p) = none) :
    InverseOn D key (fun c' q => c' = c ∧ q = p ∨ lists c' q)
        (Function.update back (key p) (some c)) ↔ Alone D key p := by
  constructor
  · intro hnew q hq hkey
    have hback : Function.update back (key p) (some c) (key q) = some c := by
      rw [hkey, Function.update_self]
    rcases (hnew q hq c).mpr hback with ⟨-, hqp⟩ | hlisted
    · exact hqp
    · rw [h q hq c, hkey, hfree] at hlisted
      cases hlisted
  · intro halone q hq c'
    by_cases hkey : key q = key p
    · obtain rfl := halone q hq hkey
      have hunlisted : ¬ lists c' q := fun hl => by
        rw [h q hq c', hfree] at hl
        cases hl
      simp [hunlisted, eq_comm]
    · have hne : q ≠ p := fun hqp => hkey (hqp ▸ rfl)
      simp [hkey, hne, h q hq c']

theorem drop_iff (h : InverseOn D key lists back) (hused : back (key p) ≠ none) :
    InverseOn D key (fun c' q => lists c' q ∧ ¬ (c' = c ∧ q = p))
        (Function.update back (key p) none) ↔
      ∀ q, D q → key q = key p → q = p ∧ back (key p) = some c := by
  obtain ⟨owner, howner⟩ := Option.ne_none_iff_exists'.mp hused
  constructor
  · intro hnew q hq hkey
    have hlisted : lists owner q := (h q hq owner).mpr (hkey ▸ howner)
    have hgone : ¬ (lists owner q ∧ ¬ (owner = c ∧ q = p)) := fun hkept => by
      have hback := (hnew q hq owner).mp hkept
      rw [hkey, Function.update_self] at hback
      cases hback
    obtain ⟨rfl, hqp⟩ : owner = c ∧ q = p := by
      by_contra hother
      exact hgone ⟨hlisted, hother⟩
    exact ⟨hqp, howner⟩
  · intro hcond q hq c'
    by_cases hkey : key q = key p
    · obtain ⟨rfl, hc⟩ := hcond q hq hkey
      show lists c' q ∧ ¬ (c' = c ∧ q = q) ↔ _
      rw [Function.update_self, h q hq c', hc]
      simp [eq_comm]
    · have hne : q ≠ p := fun hqp => hkey (hqp ▸ rfl)
      simp [hkey, hne, h q hq c']

end InverseOn

end ReverseMap
