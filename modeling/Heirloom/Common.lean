import Heirloom.Host

/-!
# Shared helpers of the contract

The private functions that most entry points use: loading and saving a vault,
the owner and beneficiary indexes, the admin and pause checks, the expiry test
and the log of status changes. Events and storage-rent extensions have no
effect on what a later call sees and are left out throughout.
-/

namespace Heirloom

open Transaction

/-! ## Protocol state -/

def loadPaused : Contract Bool := do
  return (← storageGet .paused).getD false

def assertNotPaused : Contract Unit := do
  require ((← loadPaused) = false) .paused

def loadAdmin : Contract Address := do
  fromSome (← storageGet .admin) (.error .notInitialized)

def requireAdmin : Contract Unit := do
  requireAuth (← loadAdmin)

def requireInitialized : Contract Unit := do
  require ((← storageGet .admin).isSome = true) .notInitialized

def loadToken : Contract Address := do
  fromSome (← storageGet .tokenAddress) (.error .notInitialized)

def getMaxTtlSeconds : Contract Nat := do
  return (← storageGet .maxTtlSeconds).getD 315360000

def getTtlDecayRate : Contract Nat := do
  return (← storageGet .ttlDecayRate).getD 0

def getWrappedToken (wrappedTokenAddress : Address) : Contract (Option Address) :=
  storageGet (.wrappedToken wrappedTokenAddress)

def isTokenWhitelisted (tokenAddress : Address) : Contract Bool := do
  let defaultToken ← loadToken
  let listed ← storageGet (.tokenWhitelist tokenAddress)
  let canonical ← getWrappedToken tokenAddress
  if tokenAddress = defaultToken ∨ listed.getD false = true then
    return true
  else
    ifSomeElse canonical
      (fun canonicalToken => do
        let canonicalListed ← storageGet (.tokenWhitelist canonicalToken)
        return decide (canonicalToken = defaultToken) || canonicalListed.getD false)
      (pure false)

def assertTokenWhitelisted (tokenAddress : Address) : Contract Unit := do
  require ((← isTokenWhitelisted tokenAddress) = true) .tokenNotWhitelisted

def assertIntervalInBounds (interval : Nat) : Contract Unit := do
  ifSome (← storageGet .minCheckInInterval) fun min =>
    require (min ≤ interval) .intervalTooLow
  ifSome (← storageGet .maxCheckInInterval) fun max =>
    require (interval ≤ max) .intervalTooHigh

/-! ## Vaults and indexes -/

def loadVault (vaultId : Nat) : Contract Vault := do
  fromSome (← read (·.vault vaultId)) (.error .vaultNotFound)

def tryLoadVault (vaultId : Nat) : Contract (Option Vault) := read (·.vault vaultId)

def saveVault (vaultId : Nat) (vault : Vault) : Contract Unit :=
  storageSet (.vault vaultId) vault

def loadOwnerVaultIds (owner : Address) : Contract (List Nat) := do
  return (← storageGet (.ownerVaults owner)).getD []

def addOwnerVaultId (owner : Address) (vaultId : Nat) : Contract Unit := do
  storageSet (.ownerVaults owner) ((← loadOwnerVaultIds owner) ++ [vaultId])

def removeOwnerVaultId (owner : Address) (vaultId : Nat) : Contract Unit := do
  let nextIds := (← loadOwnerVaultIds owner).filter (· ≠ vaultId)
  if nextIds.isEmpty then
    storageRemove (.ownerVaults owner)
  else
    storageSet (.ownerVaults owner) nextIds

def loadBeneficiaryVaultIds (beneficiary : Address) : Contract (List Nat) := do
  return (← storageGet (.beneficiaryVaults beneficiary)).getD []

def addBeneficiaryVaultId (beneficiary : Address) (vaultId : Nat) : Contract Unit := do
  storageSet (.beneficiaryVaults beneficiary)
    ((← loadBeneficiaryVaultIds beneficiary) ++ [vaultId])

def removeBeneficiaryVaultId (beneficiary : Address) (vaultId : Nat) : Contract Unit := do
  let nextIds := (← loadBeneficiaryVaultIds beneficiary).filter (· ≠ vaultId)
  if nextIds.isEmpty then
    storageRemove (.beneficiaryVaults beneficiary)
  else
    storageSet (.beneficiaryVaults beneficiary) nextIds

def getBeneficiaryVaultLimit : Contract Nat := do
  return (← storageGet .beneficiaryVaultLimit).getD 0

def assertBeneficiaryCapacity (beneficiary : Address) : Contract Unit := do
  let limit ← getBeneficiaryVaultLimit
  let count := (← loadBeneficiaryVaultIds beneficiary).length
  require (limit = 0 ∨ count < limit) .beneficiaryCapacityExceeded

def vaultCount : Contract Nat := do
  return (← storageGet .vaultCount).getD 0

/-- The number of vaults created so far. -/
def State.count (s : State) : Nat := (s.get .vaultCount).getD 0

/-- Vaults are numbered from 1: there is none beyond the count. -/
def State.Numbered (s : State) : Prop := ∀ id, s.count < id → s.vault id = none

/-- Appends a status change to the log of the vault. -/
def recordStateTransition (vaultId : Nat) (fromStatus toStatus : ReleaseStatus)
    (actor : Address) : Contract Unit := do
  let log := (← storageGet (.stateTransitionLog vaultId)).getD []
  storageSet (.stateTransitionLog vaultId)
    (log ++ [⟨fromStatus, toStatus, actor, ← timestamp⟩])

/-- `now` has reached the deadline moved out by `hibernated` seconds. -/
def expiredAfter (vault : Vault) (now hibernated : Nat) : Contract Bool := do
  let deadline ← u64 (vault.lastCheckIn + vault.checkInInterval)
  let deadline ← u64 (deadline + hibernated)
  return decide (deadline ≤ now)

def isExpired (vaultId : Nat) : Contract Bool := do
  let vault ← loadVault vaultId
  let now ← timestamp
  ifSomeElse (← storageGet (.hibernation vaultId))
    (fun h =>
      -- inside the hibernation window the vault cannot expire
      if min (now - h.startedAt) h.durationSeconds < h.durationSeconds then
        pure false
      else
        expiredAfter vault now h.durationSeconds)
    (expiredAfter vault now 0)

/-- The time by which the owner has to check in again. -/
def Vault.deadline (vault : Vault) : Nat := vault.lastCheckIn + vault.checkInInterval

/-! ## Guards shared by many entry points -/

/-- The vault, for a caller who signed the call, owns the vault and finds it locked. -/
def loadLockedByOwner (vaultId : Nat) (caller : Address) : Contract Vault := do
  requireAuth caller
  let vault ← loadVault vaultId
  require (caller = vault.owner) .notOwner
  require (vault.status = .locked) .alreadyReleased
  return vault

def requireUtf8MetadataBytes (bytes : Bytes) : Contract Unit := do
  let enforced : Bool := (← storageGet .requireUtf8Metadata).getD false
  require (enforced = false ∨ ByteArray.validateUTF8 ⟨bytes.toArray⟩ = true)
    .invalidMetadataEncoding

def assertMetadataLen (metadata : String) : Contract Unit :=
  require (metadata.utf8ByteSize ≤ maxMetadataLen) .invalidAmount

/-- The sum of the basis points of a list of heirs. -/
def totalBps (entries : List BeneficiaryEntry) : Nat := (entries.map (·.bps)).sum

/-- A split gives away exactly the whole, and nothing to the owner. -/
def validateSplit (owner : Address) (entries : List BeneficiaryEntry) : Contract Unit := do
  let total ← u32 (totalBps entries)
  require (total = 10000) .invalidBps
  require (∀ entry ∈ entries, entry.address ≠ owner) .invalidBeneficiary

/-! ## Rules -/

section Rules

variable {e : Env} {s t : State} {id : Nat} {v : Vault} {a : Address}

@[simp] theorem ok_loadVault :
    loadVault id e s = .ok (v, t) ↔ s.vault id = some v ∧ s = t := by
  simp [loadVault]

@[simp ↓] theorem wp_loadVault {Q : Vault → State → Prop} :
    wp (loadVault id) Q e s ↔ ∀ v, s.vault id = some v → Q v s := by
  simp [loadVault]

@[simp] theorem ok_tryLoadVault {o : Option Vault} :
    tryLoadVault id e s = .ok (o, t) ↔ s.vault id = o ∧ s = t := by
  simp [tryLoadVault]

@[simp ↓] theorem wp_tryLoadVault {Q : Option Vault → State → Prop} :
    wp (tryLoadVault id) Q e s ↔ Q (s.vault id) s := by
  simp [tryLoadVault]

@[simp] theorem ok_saveVault {u : Unit} :
    saveVault id v e s = .ok (u, t) ↔ s.put (.vault id) v = t := by
  simp [saveVault]

@[simp ↓] theorem wp_saveVault {Q : Unit → State → Prop} :
    wp (saveVault id v) Q e s ↔ Q () (s.put (.vault id) v) := by
  simp [saveVault]

@[simp ↓] theorem wp_loadPaused {Q : Bool → State → Prop} :
    wp loadPaused Q e s ↔ Q ((s.get .paused).getD false) s := by
  simp [loadPaused]

@[simp ↓] theorem wp_loadAdmin {Q : Address → State → Prop} :
    wp loadAdmin Q e s ↔ ∀ a, s.get .admin = some a → Q a s := by
  simp [loadAdmin]

@[simp ↓] theorem wp_loadToken {Q : Address → State → Prop} :
    wp loadToken Q e s ↔ ∀ a, s.get .tokenAddress = some a → Q a s := by
  simp [loadToken]

@[simp ↓] theorem wp_requireInitialized {Q : Unit → State → Prop} :
    wp requireInitialized Q e s ↔ ((s.get .admin).isSome = true → Q () s) := by
  simp [requireInitialized]

@[simp ↓] theorem wp_getMaxTtlSeconds {Q : Nat → State → Prop} :
    wp getMaxTtlSeconds Q e s ↔ Q ((s.get .maxTtlSeconds).getD 315360000) s := by
  simp [getMaxTtlSeconds]

@[simp ↓] theorem wp_getTtlDecayRate {Q : Nat → State → Prop} :
    wp getTtlDecayRate Q e s ↔ Q ((s.get .ttlDecayRate).getD 0) s := by
  simp [getTtlDecayRate]

@[simp ↓] theorem wp_loadOwnerVaultIds {Q : List Nat → State → Prop} :
    wp (loadOwnerVaultIds a) Q e s ↔ Q ((s.get (.ownerVaults a)).getD []) s := by
  simp [loadOwnerVaultIds]

@[simp ↓] theorem wp_loadBeneficiaryVaultIds {Q : List Nat → State → Prop} :
    wp (loadBeneficiaryVaultIds a) Q e s ↔ Q ((s.get (.beneficiaryVaults a)).getD []) s := by
  simp [loadBeneficiaryVaultIds]

/-- The index without `id`; an empty index is removed. -/
def withoutId (ids : List Nat) (id : Nat) : Option (List Nat) :=
  if (ids.filter (· ≠ id)).isEmpty then none else some (ids.filter (· ≠ id))

@[simp ↓] theorem wp_removeOwnerVaultId {Q : Unit → State → Prop} :
    wp (removeOwnerVaultId a id) Q e s ↔
      Q () (s.assign (.ownerVaults a) (withoutId ((s.get (.ownerVaults a)).getD []) id)) := by
  simp only [removeOwnerVaultId, withoutId, Tx.wp_bind, wp_loadOwnerVaultIds, Tx.wp_ite]
  generalize ((s.get (.ownerVaults a)).getD []).filter (· ≠ id) = next
  cases next <;> simp [State.assign]

@[simp ↓] theorem wp_removeBeneficiaryVaultId {Q : Unit → State → Prop} :
    wp (removeBeneficiaryVaultId a id) Q e s ↔
      Q () (s.assign (.beneficiaryVaults a)
        (withoutId ((s.get (.beneficiaryVaults a)).getD []) id)) := by
  simp only [removeBeneficiaryVaultId, withoutId, Tx.wp_bind, wp_loadBeneficiaryVaultIds,
    Tx.wp_ite]
  generalize ((s.get (.beneficiaryVaults a)).getD []).filter (· ≠ id) = next
  cases next <;> simp [State.assign]

@[simp ↓] theorem wp_addOwnerVaultId {Q : Unit → State → Prop} :
    wp (addOwnerVaultId a id) Q e s ↔
      Q () (s.put (.ownerVaults a) ((s.get (.ownerVaults a)).getD [] ++ [id])) := by
  simp [addOwnerVaultId]

@[simp ↓] theorem wp_addBeneficiaryVaultId {Q : Unit → State → Prop} :
    wp (addBeneficiaryVaultId a id) Q e s ↔
      Q () (s.put (.beneficiaryVaults a) ((s.get (.beneficiaryVaults a)).getD [] ++ [id])) := by
  simp [addBeneficiaryVaultId]

@[simp ↓] theorem wp_recordStateTransition {old new : ReleaseStatus} {Q : Unit → State → Prop} :
    wp (recordStateTransition id old new a) Q e s ↔
      Q () (s.put (.stateTransitionLog id)
        ((s.get (.stateTransitionLog id)).getD [] ++ [⟨old, new, a, e.timestamp⟩])) := by
  simp [recordStateTransition]

@[simp ↓] theorem wp_vaultCount {Q : Nat → State → Prop} :
    wp vaultCount Q e s ↔ Q s.count s := by
  simp [vaultCount, State.count]

@[simp ↓] theorem wp_assertMetadataLen {m : String} {Q : Unit → State → Prop} :
    wp (assertMetadataLen m) Q e s ↔ (m.utf8ByteSize ≤ maxMetadataLen → Q () s) := by
  simp [assertMetadataLen]

theorem readOnly_assertTokenWhitelisted : Tx.ReadOnly (assertTokenWhitelisted a) :=
  fun _ _ => by simp [assertTokenWhitelisted, isTokenWhitelisted, getWrappedToken]

@[simp ↓] theorem wp_assertTokenWhitelisted {Q : Unit → State → Prop} :
    wp (assertTokenWhitelisted a) Q e s ↔
      ∀ u, assertTokenWhitelisted a e s = .ok (u, s) → Q u s :=
  readOnly_assertTokenWhitelisted.wp_iff

@[simp ↓] theorem wp_assertIntervalInBounds {n : Nat} {Q : Unit → State → Prop} :
    wp (assertIntervalInBounds n) Q e s ↔
      ∀ u, assertIntervalInBounds n e s = .ok (u, s) → Q u s :=
  Tx.ReadOnly.wp_iff fun _ _ => by simp [assertIntervalInBounds]

@[simp ↓] theorem wp_assertBeneficiaryCapacity {Q : Unit → State → Prop} :
    wp (assertBeneficiaryCapacity a) Q e s ↔
      ∀ u, assertBeneficiaryCapacity a e s = .ok (u, s) → Q u s :=
  Tx.ReadOnly.wp_iff fun _ _ => by simp [assertBeneficiaryCapacity, getBeneficiaryVaultLimit]

@[simp ↓] theorem wp_requireUtf8MetadataBytes {b : Bytes} {Q : Unit → State → Prop} :
    wp (requireUtf8MetadataBytes b) Q e s ↔
      ∀ u, requireUtf8MetadataBytes b e s = .ok (u, s) → Q u s :=
  Tx.ReadOnly.wp_iff fun _ _ => by simp [requireUtf8MetadataBytes]

theorem readOnly_isExpired : Tx.ReadOnly (isExpired id) :=
  fun _ _ => by simp [isExpired, expiredAfter]

@[simp ↓] theorem wp_isExpired {Q : Bool → State → Prop} :
    wp (isExpired id) Q e s ↔ ∀ b, isExpired id e s = .ok (b, s) → Q b s :=
  readOnly_isExpired.wp_iff

@[simp] theorem ok_assertNotPaused {u : Unit} :
    assertNotPaused e s = .ok (u, t) ↔ s = t ∧ (s.get .paused).getD false = false := by
  simp [assertNotPaused, loadPaused]

@[simp ↓] theorem wp_assertNotPaused {Q : Unit → State → Prop} :
    wp assertNotPaused Q e s ↔ ((s.get .paused).getD false = false → Q () s) := by
  simp [assertNotPaused, loadPaused]

@[simp] theorem ok_requireAdmin {u : Unit} :
    requireAdmin e s = .ok (u, t) ↔
      ∃ a, s.get .admin = some a ∧ e.authorized a = true ∧ s = t := by
  simp only [requireAdmin, loadAdmin, Tx.ok_bind, ok_storageGet, Tx.ok_fromSome,
    ok_requireAuth]
  constructor
  · rintro ⟨a, _, ⟨_, _, ⟨rfl, rfl⟩, ha, rfl⟩, hauth, hst⟩
    exact ⟨a, ha, hauth, hst⟩
  · rintro ⟨a, ha, hauth, rfl⟩
    exact ⟨a, s, ⟨_, s, ⟨rfl, rfl⟩, ha, rfl⟩, hauth, rfl⟩

@[simp ↓] theorem wp_requireAdmin {Q : Unit → State → Prop} :
    wp requireAdmin Q e s ↔ ∀ a, s.get .admin = some a → e.authorized a = true → Q () s := by
  simp [requireAdmin, loadAdmin]

@[simp] theorem ok_loadLockedByOwner :
    loadLockedByOwner id a e s = .ok (v, t) ↔
      s.vault id = some v ∧ e.authorized a = true ∧ a = v.owner ∧ v.status = .locked ∧
        s = t := by
  simp [loadLockedByOwner]
  grind

@[simp ↓] theorem wp_loadLockedByOwner {Q : Vault → State → Prop} :
    wp (loadLockedByOwner id a) Q e s ↔
      (e.authorized a = true → ∀ v, s.vault id = some v → a = v.owner → v.status = .locked →
        Q v s) := by
  simp [loadLockedByOwner]

@[simp ↓] theorem wp_validateSplit {entries : List BeneficiaryEntry} {Q : Unit → State → Prop} :
    wp (validateSplit a entries) Q e s ↔
      (totalBps entries ≤ u32Max → totalBps entries = 10000 →
        (∀ entry ∈ entries, entry.address ≠ a) → Q () s) := by
  simp [validateSplit]

end Rules

end Heirloom
