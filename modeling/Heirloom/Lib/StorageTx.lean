import Heirloom.Lib.Transaction
import Heirloom.Lib.Storage

/-!
# Transactions on a typed store

Reading, writing and removing a key, for transactions whose state is a typed
store, with the rules of `Transaction` for each.
-/

namespace TypedStore

open Transaction

variable {K : Type} {V : K → Type} {ρ ε : Type}

/-- The value of a key. -/
def load (k : K) : Tx ρ (Store V) ε (Option (V k)) := Tx.read (·.get k)

section Writes

variable [DecidableEq K]

/-- Writes a key. -/
def save (k : K) (v : V k) : Tx ρ (Store V) ε Unit := Tx.update (·.put k v)

/-- Removes a key. -/
def remove (k : K) : Tx ρ (Store V) ε Unit := Tx.update (·.erase k)

end Writes

section Rules

variable {r : ρ} {s t : Store V} {k : K} {v : V k} {err : ε}

-- the type of the value is fixed by the key, so it must not be used to find these rules
@[simp] theorem ok_load {o : Option (V k)} :
    @Eq (no_index _) ((load k : Tx ρ (Store V) ε _) r s) (no_index (.ok (o, t))) ↔
      s.get k = o ∧ s = t := by
  simp [load]

@[simp] theorem err_load :
    @Eq (no_index _) ((load k : Tx ρ (Store V) ε _) r s) (no_index (.error err)) ↔ False := by
  simp [load]

@[simp ↓] theorem wp_load {Q : Option (V k) → Store V → Prop} :
    @Tx.wp ρ (Store V) ε (no_index (Option (V k))) (load k) Q r s ↔ Q (s.get k) s := by
  simp [load]

variable [DecidableEq K]

@[simp] theorem ok_save {u : Unit} :
    (save k v : Tx ρ (Store V) ε Unit) r s = .ok (u, t) ↔ s.put k v = t := by
  simp [save]

@[simp] theorem err_save : (save k v : Tx ρ (Store V) ε Unit) r s = .error err ↔ False := by
  simp [save]

@[simp ↓] theorem wp_save {Q : Unit → Store V → Prop} :
    Tx.wp (save k v : Tx ρ (Store V) ε Unit) Q r s ↔ Q () (s.put k v) := by
  simp [save]

@[simp] theorem ok_remove {u : Unit} :
    (remove k : Tx ρ (Store V) ε Unit) r s = .ok (u, t) ↔ s.erase k = t := by
  simp [remove]

@[simp] theorem err_remove : (remove k : Tx ρ (Store V) ε Unit) r s = .error err ↔ False := by
  simp [remove]

@[simp ↓] theorem wp_remove {Q : Unit → Store V → Prop} :
    Tx.wp (remove k : Tx ρ (Store V) ε Unit) Q r s ↔ Q () (s.erase k) := by
  simp [remove]

end Rules

end TypedStore
