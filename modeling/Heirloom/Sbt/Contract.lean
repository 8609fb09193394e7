import Mathlib.Algebra.Group.Nat.Defs
import Heirloom.Lib.StorageTx
import Heirloom.Sbt.Compression

/-!
# The soulbound token contract

The storage of the `sbt` contract, and the part of it that holds what a token says: it
is minted with a string, and its owner may have the string replaced by its compressed
bytes. The key of the metadata holds a value of either type, and reading it as the
other one stops the call.
-/

namespace Heirloom.Sbt

open Transaction TypedStore

def u64Max : Nat := 2 ^ 64 - 1

inductive SbtError
  | alreadyInitialized | notInitialized | tokenNotFound | emptyMetadata | alreadyComposed
  | notComposed | nftOwnershipMismatch | invalidDuration | noActiveDelegation
  | mismatchedBatchLengths | transferConditionNotMet | emptyBatch | selfDelegation
  | metadataCompressionFailed | fractionalOwnershipExists | invalidFractionSum | notInEscrow
  | alreadyInEscrow | escrowConditionsNotMet | mismatchedOwnershipArrays
  | credentialAlreadyReleased | duplicateCredentialId | noRecoveryCodes | recoveryRateLimited
  | invalidCompositionGraph
deriving DecidableEq

/-- Why a call has failed. -/
inductive Failure
  | error (err : SbtError)
  /-- The host stopped the call: missing authorisation, an overflow, a value of
  another type. -/
  | trap
deriving DecidableEq

/-! ## Storage -/

/-- What the key of a token's metadata holds. -/
inductive StoredMetadata
  | string (text : Bytes)
  | bytes (compressed : Bytes)
deriving DecidableEq

structure CompositionRecord where
  nftAddress : Address
  nftId : Nat
  composedAt : Nat
deriving DecidableEq

structure CompositionComponents where
  componentIds : List Nat
deriving DecidableEq

structure DelegationRecord where
  delegate : Address
  delegatedAt : Nat
  expiresAt : Nat
deriving DecidableEq

inductive DelegationAction
  | delegated | revoked
deriving DecidableEq

structure DelegationHistoryEntry where
  delegate : Address
  action : DelegationAction
  at_ : Nat
  expiresAt : Nat
deriving DecidableEq

structure FractionalOwnership where
  sbtId : Nat
  holders : List Address
  /-- In basis points. -/
  fractions : List Nat
  createdAt : Nat
deriving DecidableEq

inductive OwnershipAction
  | created | updated | removed
deriving DecidableEq

structure OwnershipHistoryEntry where
  sbtId : Nat
  holder : Address
  fraction : Nat
  action : OwnershipAction
  at_ : Nat
deriving DecidableEq

structure EscrowRecord where
  escrowId : Nat
  sbtId : Nat
  escrowAgent : Address
  conditions : Bytes
  createdAt : Nat
  released : Bool
deriving DecidableEq

structure RecoveryAttemptState where
  attemptCount : Nat
  windowStart : Nat
deriving DecidableEq

inductive DataKey
  | admin
  | nextTokenId
  | owner (id : Nat)
  | metadata (id : Nat)
  | mintedAt (id : Nat)
  | composition (id : Nat)
  | compositionComponents (id : Nat)
  | sharedMetadata (id : Nat)
  | delegation (id : Nat)
  | delegationHistory (id : Nat)
  | metadataCompressed (id : Nat)
  | fractionalOwnership (id : Nat)
  | ownershipHistory (id : Nat)
  | escrow (id : Nat)
  | nextEscrowId
  | recoveryCodes (id : Nat)
  | recoveryAttempts (id : Nat)
deriving DecidableEq

/-- The type of the value under a key. -/
@[reducible] def DataKey.Value : DataKey → Type
  | .admin => Address
  | .nextTokenId => Nat
  | .owner _ => Address
  | .metadata _ => StoredMetadata
  | .mintedAt _ => Nat
  | .composition _ => CompositionRecord
  | .compositionComponents _ => CompositionComponents
  | .sharedMetadata _ => Bytes
  | .delegation _ => DelegationRecord
  | .delegationHistory _ => List DelegationHistoryEntry
  | .metadataCompressed _ => Bool
  | .fractionalOwnership _ => FractionalOwnership
  | .ownershipHistory _ => List OwnershipHistoryEntry
  | .escrow _ => EscrowRecord
  | .nextEscrowId => Nat
  | .recoveryCodes _ => List Bytes32
  | .recoveryAttempts _ => RecoveryAttemptState

abbrev State := Store DataKey.Value

/-- What a call sees of the host. -/
structure Env where
  timestamp : Nat
  /-- The addresses whose authorisation the call carries. -/
  authorized : Address → Bool
  /-- `owner_of` of an NFT contract, if it returns. -/
  ownerOf : Address → Nat → Option Address
  sha256 : Bytes → Bytes32
  /-- What `prng().gen()` returns when it is called for the `n`-th time, from 0 on. -/
  random : Nat → Bytes32

/-- A call of the contract, or a part of one. -/
abbrev Contract := Tx Env State Failure

export Transaction.Tx (abort ask ensure fromSome wp)

abbrev storageGet (k : DataKey) : Contract (Option k.Value) := load k

abbrev storageSet (k : DataKey) (v : k.Value) : Contract Unit := save k v

/-- `address.require_auth()`. -/
def requireAuth (a : Address) : Contract Unit := fun e s =>
  ensure (e.authorized a = true) .trap e s

/-! ## Helpers -/

def requireAdmin : Contract Unit := do
  let admin ← storageGet .admin
  let admin ← fromSome admin (.error .notInitialized)
  requireAuth admin

def loadOwner (id : Nat) : Contract Address := do
  let owner ← storageGet (.owner id)
  fromSome owner (.error .tokenNotFound)

def requireOwner (id : Nat) : Contract Address := do
  let owner ← loadOwner id
  requireAuth owner
  pure owner

/-- `get::<_, String>` on the key of the metadata. -/
def loadString (id : Nat) : Contract Bytes := do
  let stored ← storageGet (.metadata id)
  match stored with
  | none => abort (.error .tokenNotFound)
  | some (.bytes _) => abort .trap
  | some (.string text) => pure text

/-- `get::<_, Bytes>` on the key of the metadata. -/
def loadBytes (id : Nat) : Contract Bytes := do
  let stored ← storageGet (.metadata id)
  match stored with
  | none => abort (.error .tokenNotFound)
  | some (.string _) => abort .trap
  | some (.bytes compressed) => pure compressed

/-- The copy through a buffer of the limit's size that `string_to_bytes` and
`bytes_to_string` both are. -/
def copyMetadata (metadata : Bytes) : Contract Bytes := do
  ensure (metadata.length ≤ maxMetadataSize) (.error .metadataCompressionFailed)
  pure metadata

def stringToBytes (metadata : Bytes) : Contract Bytes := copyMetadata metadata

def bytesToString (metadata : Bytes) : Contract Bytes := copyMetadata metadata

/-- `decompress_metadata_bytes(..).unwrap_or_else(..)`. -/
def decompressed (metadata : Bytes) : Contract Bytes :=
  match decompressMetadata metadata with
  | .ok bytes => pure bytes
  | .error _ => abort (.error .metadataCompressionFailed)

def isSbtMetadataCompressed (id : Nat) : Contract Bool := do
  let flag : Option Bool ← storageGet (.metadataCompressed id)
  pure (flag.getD false)

/-! ## Calls -/

/-- `initialize`. -/
def initializeContract (admin : Address) : Contract Unit := do
  let present ← storageGet .admin
  ensure (present = none) (.error .alreadyInitialized)
  requireAuth admin
  storageSet .admin admin
  storageSet .nextTokenId 0

/-- Mints a token; only for the admin. -/
def mint (recipient : Address) (metadata : Bytes) : Contract Nat := do
  requireAdmin
  ensure (metadata ≠ []) (.error .emptyMetadata)
  let next : Option Nat ← storageGet .nextTokenId
  let id := next.getD 0
  ensure (id + 1 ≤ u64Max) .trap
  storageSet .nextTokenId (id + 1)
  storageSet (.owner id) recipient
  storageSet (.metadata id) (.string metadata)
  let now ← ask (·.timestamp)
  storageSet (.mintedAt id) now
  pure id

def getMetadata (id : Nat) : Contract Bytes := do
  let compressed ← isSbtMetadataCompressed id
  if compressed = false then loadString id
  else do
    let compressed ← loadBytes id
    let metadata ← decompressed compressed
    bytesToString metadata

/-- Replaces the metadata of a token by its compressed bytes and returns how many bytes
that has saved; only for the owner. -/
def compressSbtMetadata (id : Nat) : Contract Nat := do
  let _ ← requireOwner id
  let flagged ← isSbtMetadataCompressed id
  if flagged = true then pure 0
  else do
    let metadata ← loadString id
    let metadata ← stringToBytes metadata
    let compressed := compressMetadata metadata
    if isCompressed compressed = false then pure 0
    else do
      storageSet (.metadata id) (.bytes compressed)
      storageSet (.metadataCompressed id) true
      pure (metadata.length - compressed.length)

def decompressSbtMetadata (id : Nat) : Contract Bytes := do
  let compressed ← isSbtMetadataCompressed id
  if compressed = false then do
    let metadata ← loadString id
    stringToBytes metadata
  else do
    let metadata ← loadBytes id
    decompressed metadata

section Rules

variable {e : Env} {s t : State} {a : Address} {id : Nat} {metadata : Bytes}

@[simp] theorem ok_requireAuth {u : Unit} :
    requireAuth a e s = .ok (u, t) ↔ e.authorized a = true ∧ s = t := by
  simp [requireAuth]

@[simp ↓] theorem wp_requireAuth {Q : Unit → State → Prop} :
    wp (requireAuth a) Q e s ↔ (e.authorized a = true → Q () s) := by
  simp [wp, Unique.forall_iff]

@[simp ↓] theorem wp_loadOwner {Q : Address → State → Prop} :
    wp (loadOwner id) Q e s ↔ ∀ owner, s.get (.owner id) = some owner → Q owner s := by
  simp only [loadOwner, Tx.wp_bind, Tx.wp_fromSome, wp_load]

@[simp ↓] theorem wp_requireOwner {Q : Address → State → Prop} :
    wp (requireOwner id) Q e s ↔
      ∀ owner, s.get (.owner id) = some owner → e.authorized owner = true → Q owner s := by
  simp only [requireOwner, Tx.wp_bind, Tx.wp_pure, wp_loadOwner, wp_requireAuth]

@[simp ↓] theorem wp_isSbtMetadataCompressed {Q : Bool → State → Prop} :
    wp (isSbtMetadataCompressed id) Q e s ↔
      Q ((s.get (.metadataCompressed id)).getD false) s := by
  simp only [isSbtMetadataCompressed, Tx.wp_bind, Tx.wp_pure, wp_load]

@[simp] theorem ok_isSbtMetadataCompressed {b : Bool} :
    isSbtMetadataCompressed id e s = .ok (b, t) ↔
      (s.get (.metadataCompressed id)).getD false = b ∧ s = t := by
  simp only [isSbtMetadataCompressed, Tx.ok_bind, Tx.ok_pure, ok_load]
  constructor
  · rintro ⟨_, _, ⟨rfl, rfl⟩, h, rfl⟩
    exact ⟨h, rfl⟩
  · rintro ⟨h, rfl⟩
    exact ⟨_, _, ⟨rfl, rfl⟩, h, rfl⟩

@[simp] theorem ok_loadString {text : Bytes} :
    loadString id e s = .ok (text, t) ↔ s.get (.metadata id) = some (.string text) ∧ s = t := by
  rw [loadString, Tx.bind_of_ok (ok_load.mpr ⟨rfl, rfl⟩)]
  obtain h | ⟨_ | _, h⟩ := Option.eq_none_or_eq_some (s.get (.metadata id)) <;> simp [h]

@[simp ↓] theorem wp_loadString {Q : Bytes → State → Prop} :
    wp (loadString id) Q e s ↔ ∀ text, s.get (.metadata id) = some (.string text) → Q text s := by
  simp only [wp, ok_loadString]
  refine ⟨fun h text ht => h text s ⟨ht, rfl⟩, ?_⟩
  rintro h text t ⟨ht, rfl⟩
  exact h text ht

@[simp] theorem ok_loadBytes {bytes : Bytes} :
    loadBytes id e s = .ok (bytes, t) ↔ s.get (.metadata id) = some (.bytes bytes) ∧ s = t := by
  rw [loadBytes, Tx.bind_of_ok (ok_load.mpr ⟨rfl, rfl⟩)]
  obtain h | ⟨_ | _, h⟩ := Option.eq_none_or_eq_some (s.get (.metadata id)) <;> simp [h]

@[simp] theorem ok_copyMetadata {bytes : Bytes} :
    copyMetadata metadata e s = .ok (bytes, t) ↔
      metadata.length ≤ maxMetadataSize ∧ metadata = bytes ∧ s = t := by
  simp [copyMetadata, and_assoc]

@[simp ↓] theorem wp_copyMetadata {Q : Bytes → State → Prop} :
    wp (copyMetadata metadata) Q e s ↔ (metadata.length ≤ maxMetadataSize → Q metadata s) := by
  simp [copyMetadata]

@[simp] theorem ok_decompressed {bytes : Bytes} :
    decompressed metadata e s = .ok (bytes, t) ↔
      decompressMetadata metadata = .ok bytes ∧ s = t := by
  cases h : decompressMetadata metadata <;> simp [decompressed, h]

end Rules

/-! ## What the calls do -/

section Specs

variable {e : Env} {s t : State} {m : Bytes} {id : Nat} {recipient : Address}

theorem initializeContract_ok {admin : Address} (h : initializeContract admin e s = .ok ((), t)) :
    s.get .admin = none ∧ t = (s.put .admin admin).put .nextTokenId 0 := by
  simp only [initializeContract, Tx.ok_bind, ok_load, ok_save, ok_requireAuth, Tx.ok_ensure] at h
  obtain ⟨_, _, ⟨rfl, rfl⟩, _, _, ⟨hnone, rfl⟩, _, _, ⟨_, rfl⟩, _, _, rfl, rfl⟩ := h
  exact ⟨hnone, rfl⟩

/-- The state after the mint of the token `id`. -/
def withToken (s : State) (id : Nat) (recipient : Address) (m : Bytes) (now : Nat) : State :=
  (((s.put .nextTokenId (id + 1)).put (.owner id) recipient).put (.metadata id) (.string m)).put
    (.mintedAt id) now

/-- What minting writes: the next token, with its owner and its metadata. -/
theorem mint_ok (h : mint recipient m e s = .ok (id, t)) :
    s.get .admin ≠ none ∧ id = (s.get .nextTokenId).getD 0 ∧
      t = withToken s id recipient m e.timestamp := by
  simp only [mint, requireAdmin, Tx.ok_bind, ok_load, ok_save, ok_requireAuth, Tx.ok_ensure,
    Tx.ok_fromSome, Tx.ok_ask, Tx.ok_pure] at h
  obtain ⟨_, _, ⟨_, _, ⟨hload, rfl⟩, admin, _, ⟨hadmin, rfl⟩, _, rfl⟩, _, _, ⟨_, rfl⟩, next, _,
    ⟨rfl, rfl⟩, _, _, ⟨_, rfl⟩, _, _, rfl, _, _, rfl, _, _, rfl, now, _, ⟨rfl, rfl⟩, _, _, rfl,
    rfl, rfl⟩ := h
  exact ⟨by rw [hload, hadmin]; exact Option.some_ne_none _, rfl, rfl⟩

theorem mint_eq {admin : Address} (hadmin : s.get .admin = some admin)
    (hauth : e.authorized admin = true) (hm : m ≠ []) (hid : s.get .nextTokenId = some id)
    (hmax : id + 1 ≤ u64Max) :
    mint recipient m e s = .ok (id, withToken s id recipient m e.timestamp) := by
  have hrequire : requireAdmin e s = .ok ((), s) := by
    rw [requireAdmin, Tx.bind_of_ok (ok_load.mpr ⟨hadmin, rfl⟩),
      Tx.bind_of_ok (Tx.ok_fromSome.mpr ⟨rfl, rfl⟩)]
    exact ok_requireAuth.mpr ⟨hauth, rfl⟩
  rw [mint, Tx.bind_of_ok hrequire, Tx.bind_of_ok (Tx.ok_ensure (u := ()).mpr ⟨hm, rfl⟩),
    Tx.bind_of_ok (ok_load.mpr ⟨hid, rfl⟩), Option.getD_some,
    Tx.bind_of_ok (Tx.ok_ensure (u := ()).mpr ⟨hmax, rfl⟩)]
  rfl

end Specs

end Heirloom.Sbt
