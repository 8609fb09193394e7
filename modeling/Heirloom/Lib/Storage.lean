import Mathlib.Logic.Basic

/-!
# Typed storage

A key-value store in which every key fixes the type of its value, as the
persistent storage of a smart contract does. A key is either absent or holds
one value.

The second half says what a program leaves alone: `SameOff D s t` states that
`s` and `t` agree on every key outside the area `D`. Writes inside `D` do not
change it (`sameOff_put`, `sameOff_erase`), so the frame of a whole program is
found by looking at the keys it writes.
-/

namespace TypedStore

variable {K : Type} {V : K → Type}

/-- A store whose key `k` holds values of type `V k`. -/
def Store (V : K → Type) : Type := (k : K) → Option (V k)

namespace Store

/-- No key is present. -/
def empty : Store V := fun _ => none

def get (s : Store V) (k : K) : Option (V k) := s k

variable {s t u : Store V} {k k' : K} {v : V k} {D : K → Prop}

@[simp] theorem get_empty : (empty : Store V).get k = none := rfl

section Writes

variable [DecidableEq K]

def put (s : Store V) (k : K) (v : V k) : Store V :=
  fun k' => if h : k' = k then some (h ▸ v) else s k'

def erase (s : Store V) (k : K) : Store V :=
  fun k' => if k' = k then none else s k'

@[simp] theorem get_put_self : (s.put k v).get k = some v := by
  simp [get, put]

@[simp] theorem get_put_of_ne (h : k' ≠ k) : (s.put k v).get k' = s.get k' := by
  simp [get, put, h]

@[simp] theorem get_erase_self : (s.erase k).get k = none := by
  simp [get, erase]

@[simp] theorem get_erase_of_ne (h : k' ≠ k) : (s.erase k).get k' = s.get k' := by
  simp [get, erase, h]

end Writes

/-! ## Frames -/

/-- `s` and `t` agree outside the area `D`. -/
def SameOff (D : K → Prop) (s t : Store V) : Prop := ∀ k, ¬ D k → t.get k = s.get k

@[simp] theorem sameOff_refl : SameOff D s s := fun _ _ => rfl

theorem SameOff.trans (h : SameOff D s t) (h' : SameOff D t u) : SameOff D s u :=
  fun k hk => (h' k hk).trans (h k hk)

variable [DecidableEq K]

@[simp] theorem sameOff_put (h : D k) : SameOff D s (t.put k v) ↔ SameOff D s t := by
  have hput : ∀ k', ¬ D k' → (t.put k v).get k' = t.get k' := fun k' hk' =>
    get_put_of_ne fun hkk' => hk' (hkk' ▸ h)
  exact forall₂_congr fun k' hk' => by rw [hput k' hk']

@[simp] theorem sameOff_erase (h : D k) : SameOff D s (t.erase k) ↔ SameOff D s t := by
  have herase : ∀ k', ¬ D k' → (t.erase k).get k' = t.get k' := fun k' hk' =>
    get_erase_of_ne fun hkk' => hk' (hkk' ▸ h)
  exact forall₂_congr fun k' hk' => by rw [herase k' hk']

end Store

end TypedStore
