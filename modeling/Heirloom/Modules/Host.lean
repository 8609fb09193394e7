import Heirloom.Host
import Heirloom.Lib.Runs
import Heirloom.Lib.StorageTx

/-!
# Modules with storage of their own

Some modules of the vault contract keep their data under keys of their own, which no
other part of the contract touches, and only read what the vaults hold. Each is
modelled over a typed store of its own; what the vaults hold is part of what its calls
see.
-/

namespace Heirloom.Modules

open Transaction TypedStore Runs

/-- What a call of a module sees. -/
structure Env where
  timestamp : Nat
  /-- The addresses whose authorisation the call carries. -/
  authorized : Address → Bool
  /-- What the contract holds under its other keys. -/
  contract : Heirloom.State

variable {K : Type} {V : K → Type}

/-- A call of a module, or a part of one. -/
abbrev Routine (V : K → Type) := Tx Env (Store V) Failure

/-- `address.require_auth()`. -/
def requireAuth (a : Address) : Routine V Unit := fun e s =>
  ensure (e.authorized a = true) .trap e s

/-- Fails with an error of the contract unless `c` holds. -/
def require (c : Prop) [Decidable c] (err : ContractError) : Routine V Unit :=
  ensure c (.error err)

/-- The check of the entry points that only the owner of a vault may call. -/
def requireVaultOwner (vaultId : Nat) (caller : Address) : Routine V Unit := do
  requireAuth caller
  let found ← ask fun e => e.contract.vault vaultId
  let vault ← fromSome found (.error .vaultNotFound)
  require (caller = vault.owner) .notOwner

/-- The check of the entry points that only the admin may call, unless the contract is
paused. -/
def requireAdmin (caller : Address) : Routine V Unit := do
  let paused ← ask fun e => e.contract.get .paused
  require (paused.getD false = false) .paused
  requireAuth caller
  let found ← ask fun e => e.contract.get .admin
  let admin ← fromSome found (.error .notInitialized)
  requireAuth admin

/-- The state after the given calls, newest first, on the empty store, if all succeed. -/
def play {C : Type} (exec : C → Routine V Unit) : List (Env × C) → Option (Store V)
  | [] => some .empty
  | k :: ks => (play exec ks).bind fun s =>
      match exec k.2 k.1 s with
      | .ok (_, t) => some t
      | .error _ => none

section Play

variable {C : Type} {exec : C → Routine V Unit} {k : Env × C} {ks : List (Env × C)}
  {s t : Store V}

theorem step_of_play (hs : play exec ks = some s) (ht : play exec (k :: ks) = some t) :
    exec k.2 k.1 s = .ok ((), t) := by
  rw [play, hs, Option.bind_some] at ht
  split at ht
  · next hexec =>
    obtain rfl := Option.some.inj ht
    exact hexec
  · cases ht

theorem run_of_play (h : play exec ks = some s) :
    Run (fun s k t => exec k.2 k.1 s = .ok ((), t)) .empty ks s := by
  induction ks generalizing s with
  | nil =>
      obtain rfl := Option.some.inj h
      exact .start
  | cons k ks ih =>
      obtain ⟨t, hplay, -⟩ := Option.bind_eq_some_iff.mp h
      exact .next (ih hplay) (step_of_play hplay h)

end Play

section Rules

variable {e : Env} {s t : Store V} {a : Address} {c : Prop} [Decidable c] {err : ContractError}
  {vaultId : Nat}

@[simp ↓] theorem wp_requireAuth {Q : Unit → Store V → Prop} :
    wp (requireAuth a) Q e s ↔ (e.authorized a = true → Q () s) :=
  Tx.wp_ensure

@[simp ↓] theorem wp_require {Q : Unit → Store V → Prop} :
    wp (require c err) Q e s ↔ (c → Q () s) :=
  Tx.wp_ensure

@[simp] theorem ok_requireAuth {u : Unit} :
    requireAuth a e s = .ok (u, t) ↔ e.authorized a = true ∧ s = t :=
  Tx.ok_ensure

@[simp] theorem ok_require {u : Unit} : require c err e s = .ok (u, t) ↔ c ∧ s = t :=
  Tx.ok_ensure

@[simp] theorem ok_requireVaultOwner {u : Unit} :
    requireVaultOwner vaultId a e s = .ok (u, t) ↔
      (e.authorized a = true ∧ ∃ v, e.contract.vault vaultId = some v ∧ a = v.owner) ∧ s = t := by
  simp only [requireVaultOwner, Tx.ok_bind, ok_requireAuth, ok_require, Tx.ok_ask,
    Tx.ok_fromSome]
  constructor
  · rintro ⟨_, _, ⟨ha, rfl⟩, _, _, ⟨rfl, rfl⟩, v, _, ⟨hv, rfl⟩, howner, rfl⟩
    exact ⟨⟨ha, v, hv, howner⟩, rfl⟩
  · rintro ⟨⟨ha, v, hv, howner⟩, rfl⟩
    exact ⟨(), s, ⟨ha, rfl⟩, _, s, ⟨rfl, rfl⟩, v, s, ⟨hv, rfl⟩, howner, rfl⟩

end Rules

end Heirloom.Modules
