import Mathlib.Algebra.Group.Nat.Defs
import Heirloom.Lib.StorageTx
import Heirloom.Types

/-!
# The credential verifier and its host

The records of the `zk_verifier` contract, its storage keys with the types of
their values, its errors, and what one call sees of the host. The contract
keeps all its data in one typed store; it holds no tokens.
-/

namespace Heirloom.Verifier

open Transaction TypedStore

/-! ## Constants -/

def maxProofSize : Nat := 4096
def maxClaimSize : Nat := 1024
def maxReasonSize : Nat := 1024
def maxExternalFormatSize : Nat := 8192
def defaultDisputeThreshold : Nat := 3
def maxCredentialSnapshots : Nat := 1000
def maxCredentialChainDepth : Nat := 32
def consistencyCheckInterval : Nat := 30 * 24 * 60 * 60
def attestationRecordFieldOracle : Nat := 0

def u32Max : Nat := 2 ^ 32 - 1
def u64Max : Nat := 2 ^ 64 - 1

/-- `b"LATTICE_V1"`. -/
def latticeProofHeader : Bytes := [76, 65, 84, 84, 73, 67, 69, 95, 86, 49]

/-- `b"MASKED_V1"`. -/
def maskedHeader : Bytes := [77, 65, 83, 75, 69, 68, 95, 86, 49]

/-- The address of the contract itself. -/
def currentContractAddress : Address := ⟨0⟩

/-- `MASKED_ORACLE_STRKEY`: the all-zero account, which stands for a redacted oracle. -/
def maskedOracle : Address := ⟨1⟩

/-! ## Records -/

/-- A stored attestation of an oracle. -/
structure AttestationRecord where
  credentialId : Nat
  oracle : Address
  nextCheckDue : Nat
deriving DecidableEq

/-- The state of a credential at one point in time. -/
structure CredentialSnapshot where
  credentialId : Nat
  oracle : Address
  invalidated : Bool
  timestamp : Nat
  version : Nat
deriving DecidableEq

structure CredentialVersionDiff where
  credentialId : Nat
  fromVersion : Nat
  toVersion : Nat
  fromTimestamp : Nat
  toTimestamp : Nat
  oracleChanged : Bool
  previousOracle : Address
  currentOracle : Address
  invalidatedChanged : Bool
  previousInvalidated : Bool
  currentInvalidated : Bool
deriving DecidableEq

/-- Who may read the record of a credential: anyone, the admin and the oracles, or
the admin only. -/
inductive PrivacyLevel
  | publicLevel
  | internal
  | confidential
deriving DecidableEq

inductive DisputeStatus
  | opened
  | upheld
  | rejected
deriving DecidableEq

structure Dispute where
  id : Nat
  credentialId : Nat
  initiator : Address
  reason : Bytes
  status : DisputeStatus
  votesFor : Nat
  votesAgainst : Nat
  createdAt : Nat
  resolvedAt : Nat
deriving DecidableEq

/-- One entry of the audit trail of a proof. -/
structure VerificationRecord where
  timestamp : Nat
  verified : Bool
  oracle : Address
deriving DecidableEq

/-- Which fields of a proof or of a record were redacted. -/
structure MaskingConfig where
  maskedFields : Bytes32
  version : Nat
deriving DecidableEq

/-- "Prove X if Y, else prove Z": the proofs and claims of the parts but for the
claim Y. -/
structure ConditionalProof where
  conditionProof : Bytes
  thenClaim : Bytes
  thenProof : Bytes
  elseClaim : Bytes
  elseProof : Bytes
deriving DecidableEq

/-! ## Errors -/

inductive VerifierError
  | emptyProof | emptyClaim | proofTooLarge | claimTooLarge | alreadyInitialized
  | notInitialized | oracleNotFound | malformedConditionalProof | batchConsistencyError
  | emptyBatchIds | mismatchedBatchLengths | credentialNotFound | selfReferentialParent
  | parentAlreadySet | credentialChainTooDeep | parentCredentialInvalid | invalidLatticeProof
  | externalFormatTooLarge | invalidMaskSpec | maskedVerificationFailed | accessDenied
  | versionNotFound | disputeNotFound | disputeNotOpen | alreadyVoted | disputeAlreadyOpen
  | emptyReason | reasonTooLarge | invalidThreshold
deriving DecidableEq

/-- Why a call has failed. -/
inductive Failure
  | error (err : VerifierError)
  /-- The host stopped the call: missing authorisation, an overflow, a failed `unwrap`. -/
  | trap
deriving DecidableEq

/-! ## Storage -/

inductive DataKey
  | admin
  | oracle (a : Address)
  | attestation (proofHash claimHash : Bytes32)
  | credentialCount
  | credentialHashes (id : Nat)
  | credentialInvalidated (id : Nat)
  | credentialOpenDispute (id : Nat)
  | credentialDisputeHistory (id : Nat)
  | disputeCount
  | disputeRecord (id : Nat)
  | disputeVote (id : Nat) (voter : Address)
  | disputeThreshold
  | credentialSnapshot (id timestamp : Nat)
  | credentialSnapshotTimestamps (id : Nat)
  | credentialSnapshotVersions (id : Nat)
  | credentialPrivacy (id : Nat)
  | credentialParent (id : Nat)
  | verificationHistory (proofHash : Bytes32)
  | maskingConfig (proofHash : Bytes32)
  | attestationMasking (id : Nat)
  | lastVerificationTime (proofHash : Bytes32)
deriving DecidableEq

/-- The type of the value under a key. -/
@[reducible] def DataKey.Value : DataKey → Type
  | .admin => Address
  | .oracle _ => Bool
  | .attestation _ _ => AttestationRecord
  | .credentialCount => Nat
  | .credentialHashes _ => Bytes32 × Bytes32
  | .credentialInvalidated _ => Bool
  | .credentialOpenDispute _ => Nat
  | .credentialDisputeHistory _ => List Nat
  | .disputeCount => Nat
  | .disputeRecord _ => Dispute
  | .disputeVote _ _ => Bool
  | .disputeThreshold => Nat
  | .credentialSnapshot _ _ => CredentialSnapshot
  | .credentialSnapshotTimestamps _ => List Nat
  | .credentialSnapshotVersions _ => List Nat
  | .credentialPrivacy _ => PrivacyLevel
  | .credentialParent _ => Nat
  | .verificationHistory _ => List VerificationRecord
  | .maskingConfig _ => MaskingConfig
  | .attestationMasking _ => MaskingConfig
  | .lastVerificationTime _ => Nat

/-- The parts of the storage that calls write to. -/
inductive Area
  | config | oracles | attestations | ids | invalidations | disputes | snapshots | privacy
  | parents | audit
deriving DecidableEq

@[reducible] def DataKey.area : DataKey → Area
  | .admin | .disputeThreshold => .config
  | .oracle _ => .oracles
  | .attestation _ _ => .attestations
  | .credentialCount | .credentialHashes _ => .ids
  | .credentialInvalidated _ => .invalidations
  | .credentialOpenDispute _ | .credentialDisputeHistory _ | .disputeCount | .disputeRecord _
  | .disputeVote _ _ => .disputes
  | .credentialSnapshot _ _ | .credentialSnapshotTimestamps _ | .credentialSnapshotVersions _ =>
      .snapshots
  | .credentialPrivacy _ => .privacy
  | .credentialParent _ => .parents
  | .verificationHistory _ | .maskingConfig _ | .attestationMasking _ | .lastVerificationTime _ =>
      .audit

/-! ## States and calls -/

abbrev State := Store DataKey.Value

/-- What a call sees of the host. -/
structure Env where
  /-- `env.ledger().timestamp()`. -/
  timestamp : Nat
  timestamp_le : timestamp ≤ u64Max
  /-- The addresses whose authorisation the call carries. -/
  authorized : Address → Bool
  sha256 : Bytes → Bytes32
  /-- `ConditionalProof::from_xdr`: how the host decodes a bundle. -/
  fromXdr : Bytes → Option ConditionalProof

/-- A call of the contract, or a part of one. -/
abbrev Contract := Tx Env State Failure

export Transaction.Tx (abort ask read update ensure fromSome onlyIf ifSome ifSomeElse forEach
  foldEach wp)

/-! ## Host functions -/

abbrev storageGet (k : DataKey) : Contract (Option k.Value) := load k

abbrev storageSet (k : DataKey) (v : k.Value) : Contract Unit := save k v

abbrev storageRemove (k : DataKey) : Contract Unit := remove k

def timestamp : Contract Nat := ask (·.timestamp)

def sha256 (bytes : Bytes) : Contract Bytes32 := ask (·.sha256 bytes)

/-- `address.require_auth()`. -/
def requireAuth (a : Address) : Contract Unit := fun e s =>
  ensure (e.authorized a = true) .trap e s

/-- Fails with an error of the contract unless `c` holds. -/
def require (c : Prop) [Decidable c] (err : VerifierError) : Contract Unit :=
  ensure c (.error err)

/-- The result of a `u32` operation, unless it overflows. -/
def u32 (n : Nat) : Contract Nat := do
  ensure (n ≤ u32Max) .trap
  pure n

/-- The result of a `u64` operation, unless it overflows. -/
def u64 (n : Nat) : Contract Nat := do
  ensure (n ≤ u64Max) .trap
  pure n

/-- `u64::saturating_add`. -/
def saturatingAdd64 (a b : Nat) : Nat := min (a + b) u64Max

section Rules

variable {e : Env} {s t : State} {a : Address} {n m : Nat} {h : Bytes32} {bytes : Bytes}
  {err : VerifierError} {failure : Failure}

@[simp] theorem ok_timestamp : timestamp e s = .ok (n, t) ↔ e.timestamp = n ∧ s = t := by
  simp [timestamp]

@[simp] theorem err_timestamp : timestamp e s = .error failure ↔ False := by
  simp [timestamp]

@[simp ↓] theorem wp_timestamp {Q : Nat → State → Prop} :
    wp timestamp Q e s ↔ Q e.timestamp s := by
  simp [timestamp]

@[simp] theorem ok_sha256 : sha256 bytes e s = .ok (h, t) ↔ e.sha256 bytes = h ∧ s = t := by
  simp [sha256]

@[simp] theorem err_sha256 : sha256 bytes e s = .error failure ↔ False := by
  simp [sha256]

@[simp ↓] theorem wp_sha256 {Q : Bytes32 → State → Prop} :
    wp (sha256 bytes) Q e s ↔ Q (e.sha256 bytes) s := by
  simp [sha256]

@[simp] theorem ok_requireAuth {u : Unit} :
    requireAuth a e s = .ok (u, t) ↔ e.authorized a = true ∧ s = t := by
  simp [requireAuth]

@[simp] theorem err_requireAuth :
    requireAuth a e s = .error failure ↔ e.authorized a = false ∧ Failure.trap = failure := by
  simp [requireAuth]

@[simp ↓] theorem wp_requireAuth {Q : Unit → State → Prop} :
    wp (requireAuth a) Q e s ↔ (e.authorized a = true → Q () s) := by
  simp [wp, Unique.forall_iff]

@[simp] theorem ok_require {c : Prop} [Decidable c] {u : Unit} :
    require c err e s = .ok (u, t) ↔ c ∧ s = t := by
  simp [require]

@[simp] theorem err_require {c : Prop} [Decidable c] :
    require c err e s = .error failure ↔ ¬c ∧ Failure.error err = failure := by
  simp [require]

@[simp ↓] theorem wp_require {c : Prop} [Decidable c] {Q : Unit → State → Prop} :
    wp (require c err) Q e s ↔ (c → Q () s) := by
  simp [require]

@[simp] theorem ok_u32 : u32 n e s = .ok (m, t) ↔ n ≤ u32Max ∧ n = m ∧ s = t := by
  simp [u32, and_assoc]

@[simp ↓] theorem wp_u32 {Q : Nat → State → Prop} :
    wp (u32 n) Q e s ↔ (n ≤ u32Max → Q n s) := by
  simp [u32]

@[simp] theorem ok_u64 : u64 n e s = .ok (m, t) ↔ n ≤ u64Max ∧ n = m ∧ s = t := by
  simp [u64, and_assoc]

@[simp ↓] theorem wp_u64 {Q : Nat → State → Prop} :
    wp (u64 n) Q e s ↔ (n ≤ u64Max → Q n s) := by
  simp [u64]

end Rules

end Heirloom.Verifier
