import Heirloom.Lib.LittleEndian
import Heirloom.System

/-!
# The integrity checksum

`verify_vault_integrity` hashes a string of bytes that it builds from the fields of a vault.
By its documentation these are owner, beneficiary, balance, interval, last check-in and
status. The two addresses are replaced by the vault's number and its balance, and the status
is left out.

* `integrity_binds_iff`: unless the hash collides, equal checksums mean equal vaults exactly
  where vaults that agree in balance, interval, last check-in and creation time agree in the
  other three fields too.
* `integrity_of_other_vault`: two vaults of different owners, for different heirs, one of
  them cancelled, have one checksum.
-/

namespace Heirloom

open Transaction LittleEndian

/-- What `verify_vault_integrity` reports. -/
structure IntegrityReport where
  vaultId : Nat
  checksum : Bytes32
  isValid : Bool
  timestamp : Nat

/-- The sixteen bytes of an `i128`, least significant first. -/
def i128ToLeBytes (x : Int) : Bytes := encodeInt 16 x

/-- The bytes whose hash is the checksum. -/
def integrityData (vaultId : Nat) (vault : Vault) : Bytes :=
  toLeBytes vaultId ++ i128ToLeBytes vault.balance ++ toLeBytes vault.checkInInterval ++
    toLeBytes vault.lastCheckIn ++ toLeBytes vault.createdAt ++
    -- in place of the owner
    toLeBytes vaultId ++
    -- in place of the beneficiary
    i128ToLeBytes vault.balance

def verifyVaultIntegrity (vaultId : Nat) : Contract IntegrityReport := do
  let vault ← loadVault vaultId
  let checksum ← ask (·.sha256 (integrityData vaultId vault))
  return ⟨vaultId, checksum, true, ← timestamp⟩

/-- The fields that are hashed have values of their types. -/
structure Vault.Typed (v : Vault) : Prop where
  balance : InI128 v.balance
  checkInInterval : v.checkInInterval ≤ u64Max
  lastCheckIn : v.lastCheckIn ≤ u64Max
  createdAt : v.createdAt ≤ u64Max

/-- Two vaults agree in the fields that are hashed. -/
structure Vault.SameHashed (v w : Vault) : Prop where
  balance : v.balance = w.balance
  checkInInterval : v.checkInInterval = w.checkInInterval
  lastCheckIn : v.lastCheckIn = w.lastCheckIn
  createdAt : v.createdAt = w.createdAt

/-- Two vaults agree in who has them and in how far they are. -/
structure Vault.SameParties (v w : Vault) : Prop where
  owner : v.owner = w.owner
  beneficiary : v.beneficiary = w.beneficiary
  status : v.status = w.status

/-- Two vaults agree in the fields that the checksum is documented to cover. -/
structure Vault.SameKeyFields (v w : Vault) : Prop where
  parties : v.SameParties w
  balance : v.balance = w.balance
  checkInInterval : v.checkInInterval = w.checkInInterval
  lastCheckIn : v.lastCheckIn = w.lastCheckIn

section Integrity

variable {e : Env} {s : State} {id : Nat} {v w : Vault}

/-- The report on a vault that exists. -/
theorem verifyVaultIntegrity_ok (hv : s.vault id = some v) : verifyVaultIntegrity id e s =
    .ok (⟨id, e.sha256 (integrityData id v), true, e.timestamp⟩, s) := by
  simp [verifyVaultIntegrity, hv]

theorem toLeBytes_injective {n m : Nat} (hn : n ≤ u64Max) (hm : m ≤ u64Max)
    (h : toLeBytes n = toLeBytes m) : n = m :=
  @encode_injective 8 n m (Nat.lt_of_le_of_lt hn (by decide)) (Nat.lt_of_le_of_lt hm (by decide)) h

theorem i128ToLeBytes_injective {x y : Int} (hx : InI128 x) (hy : InI128 y)
    (h : i128ToLeBytes x = i128ToLeBytes y) : x = y := by
  refine encodeInt_injective ?_ h
  obtain ⟨hx, hx'⟩ := hx
  obtain ⟨hy, hy'⟩ := hy
  unfold i128Min at hx hy
  unfold i128Max at hx' hy'
  omega

theorem integrityData_congr (h : v.SameHashed w) : integrityData id v = integrityData id w := by
  obtain ⟨hbalance, hinterval, hlast, hcreated⟩ := h
  simp only [integrityData, hbalance, hinterval, hlast, hcreated]

/-- The bytes determine the four fields, and nothing else. -/
theorem integrityData_eq_iff (hv : v.Typed) (hw : w.Typed) :
    integrityData id v = integrityData id w ↔ v.SameHashed w := by
  refine ⟨fun h => ?_, integrityData_congr⟩
  have hlength : ∀ {n m : Nat}, (toLeBytes n).length = (toLeBytes m).length := by
    simp [toLeBytes]
  -- every field has its own width, so the bytes come apart from the right
  obtain ⟨h, hbalance⟩ := List.append_inj' h (by simp [i128ToLeBytes])
  obtain ⟨h, -⟩ := List.append_inj' h hlength
  obtain ⟨h, hcreated⟩ := List.append_inj' h hlength
  obtain ⟨h, hlast⟩ := List.append_inj' h hlength
  obtain ⟨-, hinterval⟩ := List.append_inj' h hlength
  exact {
    balance := i128ToLeBytes_injective hv.balance hw.balance hbalance
    checkInInterval := toLeBytes_injective hv.checkInInterval hw.checkInInterval hinterval
    lastCheckIn := toLeBytes_injective hv.lastCheckIn hw.lastCheckIn hlast
    createdAt := toLeBytes_injective hv.createdAt hw.createdAt hcreated }

end Integrity

/-- Unless the hash takes different bytes of two states of a vault to one checksum, equal
checksums mean that all key fields are equal exactly if the states differ in a field that is
hashed or agree in owner, beneficiary and status. -/
theorem integrity_binds_iff {e e' : Env} {s s' : State} {id : Nat} {v v' : Vault}
    (hv : s.vault id = some v) (hv' : s'.vault id = some v') (htyped : v.Typed)
    (htyped' : v'.Typed) (hhash : e'.sha256 = e.sha256)
    (hapart : e.sha256 (integrityData id v) = e.sha256 (integrityData id v') →
      integrityData id v = integrityData id v') :
    ∃ r r', verifyVaultIntegrity id e s = .ok (r, s) ∧
      verifyVaultIntegrity id e' s' = .ok (r', s') ∧
        ((r.checksum = r'.checksum → v.SameKeyFields v') ↔
          (v.SameHashed v' → v.SameParties v')) := by
  refine ⟨_, _, verifyVaultIntegrity_ok hv, verifyVaultIntegrity_ok hv', ?_⟩
  have hchecksum : e.sha256 (integrityData id v) = e'.sha256 (integrityData id v') ↔
      v.SameHashed v' := by
    rw [hhash, ← @integrityData_eq_iff id v v' htyped htyped']
    exact ⟨hapart, congrArg _⟩
  rw [hchecksum]
  constructor
  · intro hbinds hsame
    exact (hbinds hsame).parties
  · intro hparties hsame
    exact ⟨hparties hsame, hsame.balance, hsame.checkInInterval, hsame.lastCheckIn⟩

/-- Two states of a vault, before and after a deposit, under a hash that tells them apart. -/
theorem integrity_binds_deposit : ∃ (w w' : World) (e : Env) (v v' : Vault)
    (r r' : IntegrityReport), Reachable w ∧ Reachable w' ∧ w.state.vault 1 = some v ∧
      w'.state.vault 1 = some v' ∧ v.balance ≠ v'.balance ∧
      verifyVaultIntegrity 1 e w.state = .ok (r, w.state) ∧
      verifyVaultIntegrity 1 e w'.state = .ok (r', w'.state) ∧
      (r.checksum = r'.checksum → v.SameKeyFields v') := by
  let e : Env := { signedBy [] 0 with sha256 := fun bytes => .ofFn fun i => bytes.getD i 0 }
  have hplay : (play (initialised ⟨8⟩ ⟨9⟩)
      [opensVault 100]).any (fun w =>
        (w.state.vault 1).any (fun v => v.balance = 0 ∧ v.checkInInterval = 100 ∧
          v.lastCheckIn = 0 ∧ v.createdAt = 0)) = true := by decide +kernel
  have hplay' : (play (initialised ⟨8⟩ ⟨9⟩)
      [opensVault 100, paysIn 100]).any (fun w =>
        (w.state.vault 1).any (fun v => v.balance = 100 ∧ v.checkInInterval = 100 ∧
          v.lastCheckIn = 0 ∧ v.createdAt = 0)) = true := by decide +kernel
  obtain ⟨w, hw, hchecks⟩ := (Option.any_eq_true _ _).mp hplay
  obtain ⟨v, hv, hfields⟩ := (Option.any_eq_true _ _).mp hchecks
  obtain ⟨w', hw', hchecks'⟩ := (Option.any_eq_true _ _).mp hplay'
  obtain ⟨v', hv', hfields'⟩ := (Option.any_eq_true _ _).mp hchecks'
  simp only [decide_eq_true_eq] at hfields hfields'
  obtain ⟨hbalance, hinterval, hlast, hcreated⟩ := hfields
  obtain ⟨hbalance', hinterval', hlast', hcreated'⟩ := hfields'
  have htyped : v.Typed :=
    ⟨by rw [hbalance]; exact ⟨by decide, by decide⟩, by rw [hinterval]; decide,
      by rw [hlast]; decide, by rw [hcreated]; decide⟩
  have htyped' : v'.Typed :=
    ⟨by rw [hbalance']; exact ⟨by decide, by decide⟩, by rw [hinterval']; decide,
      by rw [hlast']; decide, by rw [hcreated']; decide⟩
  have hne : e.sha256 (integrityData 1 v) ≠ e.sha256 (integrityData 1 v') := by
    simp only [integrityData, hbalance, hinterval, hlast, hcreated, hbalance', hinterval', hlast',
      hcreated']
    decide +kernel
  have hdiffer : v.balance ≠ v'.balance := by
    rw [hbalance, hbalance']
    decide
  obtain ⟨r, r', hr, hr', hbinds⟩ :=
    integrity_binds_iff hv hv' htyped htyped' rfl fun h => absurd h hne
  exact ⟨w, w', e, v, v', r, r', reachable_of_play hw, reachable_of_play hw', hv, hv', hdiffer, hr,
    hr', hbinds.mpr fun hsame => absurd hsame.balance hdiffer⟩

/-- Two vaults with the number 1: the second has another owner and another heir, and is
cancelled. -/
theorem integrity_of_other_vault : ¬ ∀ (w w' : World) (e e' : Env) (id : Nat) (v v' : Vault)
    (r r' : IntegrityReport), Reachable w → Reachable w' → w.state.vault id = some v →
      w'.state.vault id = some v' → e'.sha256 = e.sha256 →
      (e.sha256 (integrityData id v) = e.sha256 (integrityData id v') →
        integrityData id v = integrityData id v') →
      verifyVaultIntegrity id e w.state = .ok (r, w.state) →
      verifyVaultIntegrity id e' w'.state = .ok (r', w'.state) →
        r.checksum = r'.checksum → v.SameKeyFields v' := by
  have hplay : (play (initialised ⟨8⟩ ⟨9⟩)
      [opensVault 100]).any (fun w =>
        (w.state.vault 1).any (fun v => v.owner = ⟨1⟩ ∧ v.balance = 0 ∧ v.checkInInterval = 100 ∧
          v.lastCheckIn = 0 ∧ v.createdAt = 0)) = true := by decide +kernel
  have hplay' : (play (initialised ⟨8⟩ ⟨9⟩)
      [(signedBy [⟨3⟩] 0, .vault (.createVault ⟨3⟩ ⟨4⟩ 100 none)),
        (signedBy [⟨3⟩] 0, .vault (.cancelVault 1 ⟨3⟩))]).any (fun w =>
        (w.state.vault 1).any (fun v => v.owner = ⟨3⟩ ∧ v.balance = 0 ∧ v.checkInInterval = 100 ∧
          v.lastCheckIn = 0 ∧ v.createdAt = 0)) = true := by decide +kernel
  obtain ⟨w, hw, hchecks⟩ := (Option.any_eq_true _ _).mp hplay
  obtain ⟨v, hv, hfields⟩ := (Option.any_eq_true _ _).mp hchecks
  obtain ⟨w', hw', hchecks'⟩ := (Option.any_eq_true _ _).mp hplay'
  obtain ⟨v', hv', hfields'⟩ := (Option.any_eq_true _ _).mp hchecks'
  simp only [decide_eq_true_eq] at hfields hfields'
  obtain ⟨howner, hbalance, hinterval, hlast, hcreated⟩ := hfields
  obtain ⟨howner', hbalance', hinterval', hlast', hcreated'⟩ := hfields'
  have hsame : v.SameHashed v' := ⟨hbalance.trans hbalance'.symm, hinterval.trans hinterval'.symm,
    hlast.trans hlast'.symm, hcreated.trans hcreated'.symm⟩
  have hdata : integrityData 1 v = integrityData 1 v' := integrityData_congr hsame
  intro h
  have hkey := h w w' (signedBy [] 0) (signedBy [] 0) 1 v v' _ _ (reachable_of_play hw)
    (reachable_of_play hw') hv hv' rfl (fun _ => hdata) (verifyVaultIntegrity_ok hv)
    (verifyVaultIntegrity_ok hv') (congrArg (signedBy [] 0).sha256 hdata)
  have howners := hkey.parties.owner
  rw [howner, howner'] at howners
  cases howners

end Heirloom
