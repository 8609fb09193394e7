import Heirloom.Verifier.Host

/-!
# The entry points of the credential verifier

Oracles attest pairs of a proof and a claim; each pair is a credential with an
id, a history of snapshots and, if it is derived from another one, a parent.
Registered oracles vote on disputes, and an upheld dispute invalidates the
credential. Events are left out, and so are the two entry points that neither
read nor write any of this (`export_proof_for_verification` and
`get_proof_verification_history`).
-/

namespace Heirloom.Verifier

open Transaction TypedStore

/-! ## Access -/

/-- `initialize`. -/
def initializeContract (admin : Address) : Contract Unit := do
  let current : Option Address ← storageGet .admin
  require (current.isSome = false) .alreadyInitialized
  requireAuth admin
  storageSet .admin admin

def requireAdmin : Contract Unit := do
  let admin : Address ← fromSome (← storageGet .admin) (.error .notInitialized)
  requireAuth admin

def isAdmin (a : Address) : Contract Bool := do
  let admin : Option Address ← storageGet .admin
  return admin.any fun x => decide (x = a)

/-- `is_oracle`, also `is_registered_oracle`. -/
def isOracle (oracle : Address) : Contract Bool := do
  return (← storageGet (.oracle oracle)).getD false

def requireRegisteredOracle (oracle : Address) : Contract Unit := do
  require ((← isOracle oracle) = true) .oracleNotFound

def registerOracle (oracle : Address) : Contract Unit := do
  requireAdmin
  storageSet (.oracle oracle) true

def revokeOracle (oracle : Address) : Contract Unit := do
  requireAdmin
  storageRemove (.oracle oracle)

/-! ## Snapshots -/

def isCredentialInvalidated (credentialId : Nat) : Contract Bool := do
  return (← storageGet (.credentialInvalidated credentialId)).getD false

/-- Keeps the state of a credential. A second change at the same time overwrites
the first, and beyond `maxCredentialSnapshots` the oldest snapshot is dropped. -/
def recordCredentialSnapshot (credentialId : Nat) (oracle : Address) (invalidated : Bool) :
    Contract Unit := do
  let now ← timestamp
  let timestamps : List Nat :=
    (← storageGet (.credentialSnapshotTimestamps credentialId)).getD []
  let versions : List Nat := (← storageGet (.credentialSnapshotVersions credentialId)).getD []
  if timestamps.getLast? = some now then
    storageSet (.credentialSnapshot credentialId now)
      ⟨credentialId, oracle, invalidated, now, versions.getLast?.getD 1⟩
  else do
    let version ← u32 (versions.getLast?.getD 0 + 1)
    storageSet (.credentialSnapshot credentialId now)
      ⟨credentialId, oracle, invalidated, now, version⟩
    let timestamps := timestamps ++ [now]
    let versions := versions ++ [version]
    if maxCredentialSnapshots < timestamps.length then do
      storageRemove (.credentialSnapshot credentialId (timestamps.headD 0))
      storageSet (.credentialSnapshotTimestamps credentialId) timestamps.tail
      storageSet (.credentialSnapshotVersions credentialId) versions.tail
    else do
      storageSet (.credentialSnapshotTimestamps credentialId) timestamps
      storageSet (.credentialSnapshotVersions credentialId) versions

/-! ## Attestation -/

/-- The id of an attested pair, or a fresh one. -/
def mintOrReuseCredentialId (proofHash claimHash : Bytes32) : Contract Nat := do
  let existing : Option AttestationRecord ← storageGet (.attestation proofHash claimHash)
  ifSomeElse existing (fun record => pure record.credentialId) do
    let count : Option Nat ← storageGet .credentialCount
    let credentialId ← u64 (count.getD 0 + 1)
    storageSet .credentialCount credentialId
    storageSet (.credentialHashes credentialId) (proofHash, claimHash)
    return credentialId

/-- The last lines of `attest` and `create_derived_credential`. -/
def storeAttestation (credentialId : Nat) (oracle : Address) (proofHash claimHash : Bytes32) :
    Contract Unit := do
  let now ← timestamp
  storageSet (.attestation proofHash claimHash)
    ⟨credentialId, oracle, saturatingAdd64 now consistencyCheckInterval⟩
  let invalidated ← isCredentialInvalidated credentialId
  recordCredentialSnapshot credentialId oracle invalidated

def attest (oracle : Address) (proof claim : Bytes) : Contract Nat := do
  require (proof ≠ []) .emptyProof
  require (claim ≠ []) .emptyClaim
  requireRegisteredOracle oracle
  requireAuth oracle
  let proofHash ← sha256 proof
  let claimHash ← sha256 claim
  let credentialId ← mintOrReuseCredentialId proofHash claimHash
  storeAttestation credentialId oracle proofHash claimHash
  return credentialId

def loadParent (credentialId : Nat) : Contract (Option Nat) :=
  storageGet (.credentialParent credentialId)

/-- Walks up from `current`, with `depth` hops behind it. There are at most
`maxCredentialChainDepth` hops, which bounds the recursion. -/
def validateFrom : Nat → Nat → Nat → Contract Unit
  | 0, _, _ => abort .trap
  | fuel + 1, current, depth => do
      require ((← isCredentialInvalidated current) = false) .parentCredentialInvalid
      ifSome (← loadParent current) fun parent => do
        require (depth + 1 ≤ maxCredentialChainDepth) .credentialChainTooDeep
        validateFrom fuel parent (depth + 1)

def validateCredentialChain (credentialId : Nat) : Contract Unit :=
  validateFrom (maxCredentialChainDepth + 1) credentialId 0

def createDerivedCredential (oracle : Address) (parentId : Nat) (proof claim : Bytes) :
    Contract Nat := do
  require (proof ≠ []) .emptyProof
  require (claim ≠ []) .emptyClaim
  let parentHashes : Option (Bytes32 × Bytes32) ← storageGet (.credentialHashes parentId)
  require (parentHashes.isSome = true) .credentialNotFound
  validateCredentialChain parentId
  requireRegisteredOracle oracle
  requireAuth oracle
  let proofHash ← sha256 proof
  let claimHash ← sha256 claim
  let credentialId ← mintOrReuseCredentialId proofHash claimHash
  require (credentialId ≠ parentId) .selfReferentialParent
  let existingParent ← loadParent credentialId
  require (existingParent.all (fun p => decide (p = parentId)) = true) .parentAlreadySet
  storageSet (.credentialParent credentialId) parentId
  storeAttestation credentialId oracle proofHash claimHash
  return credentialId

def loadAttestationRecord (credentialId : Nat) : Contract (Option AttestationRecord) := do
  let hashes : Option (Bytes32 × Bytes32) ← storageGet (.credentialHashes credentialId)
  ifSomeElse hashes (fun h => storageGet (.attestation h.1 h.2)) (pure none)

def rescheduleConsistencyCheck (credentialId : Nat) : Contract Unit := do
  let hashes : Bytes32 × Bytes32 ←
    fromSome (← storageGet (.credentialHashes credentialId)) (.error .credentialNotFound)
  let record : AttestationRecord ←
    fromSome (← storageGet (.attestation hashes.1 hashes.2)) (.error .credentialNotFound)
  let now ← timestamp
  storageSet (.attestation hashes.1 hashes.2)
    { record with nextCheckDue := saturatingAdd64 now consistencyCheckInterval }

/-! ## Chains of parents -/

/-- The parents of `current`, which is `depth` hops up the chain. -/
def ancestorsFrom : Nat → Nat → Nat → Contract (List Nat)
  | 0, _, _ => pure []
  | fuel + 1, current, depth => do
      let parent ← loadParent current
      ifSomeElse parent
        (fun p => do
          let rest ← if maxCredentialChainDepth < depth + 1 then pure []
            else ancestorsFrom fuel p (depth + 1)
          return p :: rest)
        (pure [])

def getCredentialChain (credentialId : Nat) : Contract (List Nat) := do
  let ancestors ← ancestorsFrom (maxCredentialChainDepth + 1) credentialId 0
  return credentialId :: ancestors

/-- The loop of `is_credential_chain_valid`: the credential reached by the last
hop that the bound allows is not looked at. -/
def chainValidFrom : Nat → Nat → Nat → Contract Bool
  | 0, _, _ => pure true
  | fuel + 1, current, depth => do
      if (← isCredentialInvalidated current) then
        return false
      else do
        let parent ← loadParent current
        ifSomeElse parent
          (fun p => if maxCredentialChainDepth < depth + 1 then pure true
            else chainValidFrom fuel p (depth + 1))
          (pure true)

def isCredentialChainValid (credentialId : Nat) : Contract Bool :=
  chainValidFrom (maxCredentialChainDepth + 1) credentialId 0

/-! ## Disputes -/

def getDisputeThreshold : Contract Nat := do
  return (← storageGet .disputeThreshold).getD defaultDisputeThreshold

def setDisputeThreshold (threshold : Nat) : Contract Unit := do
  requireAdmin
  require (threshold ≠ 0) .invalidThreshold
  storageSet .disputeThreshold threshold

def getCredentialDisputes (credentialId : Nat) : Contract (List Nat) := do
  return (← storageGet (.credentialDisputeHistory credentialId)).getD []

def initiateCredentialDispute (credentialId : Nat) (initiator : Address) (reason : Bytes) :
    Contract Nat := do
  requireAuth initiator
  let hashes : Option (Bytes32 × Bytes32) ← storageGet (.credentialHashes credentialId)
  require (hashes.isSome = true) .credentialNotFound
  require (reason ≠ []) .emptyReason
  require (reason.length ≤ maxReasonSize) .reasonTooLarge
  let current : Option Nat ← storageGet (.credentialOpenDispute credentialId)
  require (current.isSome = false) .disputeAlreadyOpen
  let count : Option Nat ← storageGet .disputeCount
  let disputeId ← u64 (count.getD 0 + 1)
  storageSet .disputeCount disputeId
  let now ← timestamp
  storageSet (.disputeRecord disputeId)
    ⟨disputeId, credentialId, initiator, reason, .opened, 0, 0, now, 0⟩
  storageSet (.credentialOpenDispute credentialId) disputeId
  let history : List Nat := (← storageGet (.credentialDisputeHistory credentialId)).getD []
  storageSet (.credentialDisputeHistory credentialId) (history ++ [disputeId])
  return disputeId

/-- A dispute with one more vote. -/
def Dispute.count (dispute : Dispute) (vote : Bool) : Contract Dispute :=
  if vote = true then do
    let votesFor ← u32 (dispute.votesFor + 1)
    return { dispute with votesFor }
  else do
    let votesAgainst ← u32 (dispute.votesAgainst + 1)
    return { dispute with votesAgainst }

/-- How a dispute ends, if enough votes agree. -/
def Dispute.resolution (dispute : Dispute) (threshold : Nat) : Option Bool :=
  if threshold ≤ dispute.votesFor then some true
  else if threshold ≤ dispute.votesAgainst then some false
  else none

/-- Closes a dispute. The snapshot says whether this dispute was upheld. -/
def resolveDispute (dispute : Dispute) (upheld : Bool) : Contract Dispute := do
  let now ← timestamp
  storageRemove (.credentialOpenDispute dispute.credentialId)
  onlyIf (upheld = true) (storageSet (.credentialInvalidated dispute.credentialId) true)
  ifSome (← loadAttestationRecord dispute.credentialId) fun record =>
    recordCredentialSnapshot dispute.credentialId record.oracle upheld
  return { dispute with status := if upheld then .upheld else .rejected, resolvedAt := now }

def voteOnDispute (disputeId : Nat) (voter : Address) (vote : Bool) : Contract Unit := do
  let dispute : Dispute ←
    fromSome (← storageGet (.disputeRecord disputeId)) (.error .disputeNotFound)
  require (dispute.status = .opened) .disputeNotOpen
  requireRegisteredOracle voter
  requireAuth voter
  let earlier : Option Bool ← storageGet (.disputeVote disputeId voter)
  require (earlier.isSome = false) .alreadyVoted
  storageSet (.disputeVote disputeId voter) vote
  let counted ← dispute.count vote
  let threshold ← getDisputeThreshold
  let closed ← ifSomeElse (counted.resolution threshold) (resolveDispute counted) (pure counted)
  storageSet (.disputeRecord disputeId) closed

def getDispute (disputeId : Nat) : Contract Dispute := do
  fromSome (← storageGet (.disputeRecord disputeId)) (.error .disputeNotFound)

/-! ## Verification -/

def recordVerification (proofHash : Bytes32) (verified : Bool) : Contract Unit := do
  let history : List VerificationRecord :=
    (← storageGet (.verificationHistory proofHash)).getD []
  let now ← timestamp
  storageSet (.verificationHistory proofHash) (history ++ [⟨now, verified, currentContractAddress⟩])

/-- The checks of the size of a proof and a claim. -/
def assertSizes (proof claim : Bytes) : Contract Unit := do
  require (proof ≠ []) .emptyProof
  require (proof.length ≤ maxProofSize) .proofTooLarge
  require (claim ≠ []) .emptyClaim
  require (claim.length ≤ maxClaimSize) .claimTooLarge

/-- Whether the oracle that attested a pair is registered now. -/
def attestedBy (record : Option AttestationRecord) : Contract Bool :=
  ifSomeElse record (fun r => isOracle r.oracle) (pure false)

def verifyInternal (proof claim : Bytes) : Contract Bool := do
  assertSizes proof claim
  let proofHash ← sha256 proof
  let claimHash ← sha256 claim
  let record : Option AttestationRecord ← storageGet (.attestation proofHash claimHash)
  ifSomeElse record
    (fun r => do
      let registered ← isOracle r.oracle
      let invalidated ← isCredentialInvalidated r.credentialId
      return registered && !invalidated)
    (pure false)

def verifyClaim (proof claim : Bytes) : Contract Bool := do
  let proofHash ← sha256 proof
  let result ← verifyInternal proof claim
  onlyIf (result = true) (recordVerification proofHash true)
  return result

/-- The header and the checksum of a proof in lattice format. -/
def isValidLatticeProof (proof : Bytes) : Contract Bool := do
  let bodyLen := proof.length - 4
  let digest ← sha256 (proof.take bodyLen)
  return decide (latticeProofHeader.length + 4 ≤ proof.length ∧
    proof.take latticeProofHeader.length = latticeProofHeader ∧
    digest.toList.take 4 = proof.drop bodyLen)

/-- Unlike `verifyInternal` it does not ask whether the credential is invalidated. -/
def verifyLatticeProof (proof claim : Bytes) : Contract Bool := do
  assertSizes proof claim
  require ((← isValidLatticeProof proof) = true) .invalidLatticeProof
  let proofHash ← sha256 proof
  let claimHash ← sha256 claim
  let result ← attestedBy (← storageGet (.attestation proofHash claimHash))
  let now ← timestamp
  storageSet (.lastVerificationTime proofHash) now
  onlyIf (result = true) (recordVerification proofHash true)
  return result

/-- The four bytes of a `u32`, lowest first. -/
def toLeBytes (n : Nat) : Bytes :=
  [UInt8.ofNat n, UInt8.ofNat (n / 256), UInt8.ofNat (n / 65536), UInt8.ofNat (n / 16777216)]

/-- `proof` with the masked offsets zeroed. The shift of the mask test is out of
range from offset 32 on. -/
def maskBytes (proof : Bytes) (fieldMask : Nat) : Contract Bytes :=
  foldEach (List.range proof.length) [] fun masked i => do
    ensure (i < 32) .trap
    return masked ++ [if fieldMask.testBit i then 0 else proof.getD i 0]

def maskProofFields (proof : Bytes) (fieldsToMask : List Nat) : Contract Bytes := do
  require (proof ≠ []) .emptyProof
  require (proof.length ≤ maxProofSize) .proofTooLarge
  require (fieldsToMask ≠ []) .invalidMaskSpec
  let fieldMask ← foldEach fieldsToMask 0 fun mask field => do
    require (field < 32 ∧ field < proof.length) .invalidMaskSpec
    return mask ||| 2 ^ field
  let body ← maskBytes proof fieldMask
  let masked := maskedHeader ++ toLeBytes fieldMask ++ body
  require (masked.length ≤ maxExternalFormatSize) .externalFormatTooLarge
  let proofHash ← sha256 proof
  let maskingSpec ← sha256 (toLeBytes fieldMask)
  storageSet (.maskingConfig proofHash) ⟨maskingSpec, 1⟩
  return masked

/-- Neither the size of the proof nor the invalidation is looked at. -/
def verifyMaskedProof (maskedProof claim : Bytes) : Contract Bool := do
  require (maskedProof ≠ []) .emptyProof
  require (claim ≠ []) .emptyClaim
  require (13 ≤ maskedProof.length) .invalidMaskSpec
  let maskedHash ← sha256 maskedProof
  let claimHash ← sha256 claim
  let result ← attestedBy (← storageGet (.attestation maskedHash claimHash))
  require (result = true) .maskedVerificationFailed
  return result

/-- The branch of a conditional proof that is checked, as a proof and a claim. -/
def ConditionalProof.branch (bundle : ConditionalProof) (conditionResult : Bool) : Bytes × Bytes :=
  if conditionResult then (bundle.thenProof, bundle.thenClaim)
  else (bundle.elseProof, bundle.elseClaim)

def verifyConditionalProof (proof condition : Bytes) : Contract Bool := do
  let bundle ← fromSome (← ask (·.fromXdr proof)) (.error .malformedConditionalProof)
  let conditionResult ← verifyInternal bundle.conditionProof condition
  verifyInternal (bundle.branch conditionResult).1 (bundle.branch conditionResult).2

/-! ### Consistency of a batch -/

/-- A big-endian `u32`. -/
def fromBeBytes (bytes : Bytes) : Nat := bytes.foldl (fun n b => n * 256 + b.toNat) 0

def parseAgeClaim (claim : Bytes) : Option (Nat × Nat) :=
  if claim.length < 8 then none
  else some (fromBeBytes (claim.take 4), fromBeBytes ((claim.drop 4).take 4))

def ageRangesCompatible (a b : Nat × Nat) : Bool := decide (a.1 ≤ b.2 ∧ b.1 ≤ a.2)

def isAgeClaim (claim : Bytes) : Bool :=
  (parseAgeClaim claim).any fun r => decide (r.1 < r.2 ∧ r.2 < 200)

inductive KycStatus
  | pending
  | approved
  | rejected
  | unknown
deriving DecidableEq

def extractKycStatus (claim : Bytes) : Option KycStatus :=
  claim.head?.map fun b =>
    if b = 0 then .pending else if b = 1 then .approved else if b = 2 then .rejected else .unknown

def isKycStatusClaim (claim : Bytes) : Bool :=
  (extractKycStatus claim).any fun status => decide (status ≠ .unknown)

/-- Only a rejection conflicts with the other two. -/
def kycStatusesCompatible (a b : KycStatus) : Bool :=
  decide (a = b) || !(match a, b with
    | .pending, .rejected | .approved, .rejected | .rejected, .pending | .rejected, .approved => true
    | _, _ => false)

def areCredentialsCompatible (a b : Bytes) : Bool :=
  if isAgeClaim a && isAgeClaim b then
    decide (a = b) || ((parseAgeClaim a).all fun x => (parseAgeClaim b).all (ageRangesCompatible x))
  else if isKycStatusClaim a && isKycStatusClaim b then
    decide (a = b) ||
      ((extractKycStatus a).all fun x => (extractKycStatus b).all (kycStatusesCompatible x))
  else true

/-- The pairs of a list, each entry with those after it. -/
def claimPairs : List Bytes → List (Bytes × Bytes)
  | [] => []
  | claim :: rest => rest.map (claim, ·) ++ claimPairs rest

/-- An empty list of pairs is an error. -/
def verifyBatchConsistency (pairs : List (Bytes × Bytes)) : Bool :=
  pairs ≠ [] && pairs.all fun p => areCredentialsCompatible p.1 p.2

/-- Verifies the pairs in turn, up to the first that fails. -/
def verifyAll : List (Bytes × Bytes) → Contract Bool
  | [] => pure true
  | (proof, claim) :: rest => do
      if (← verifyClaim proof claim) then verifyAll rest else return false

def verifyCredentialsConsistent (proofs claims : List Bytes) : Contract Bool := do
  require (proofs.length = claims.length) .mismatchedBatchLengths
  require (proofs ≠ []) .emptyBatchIds
  if (← verifyAll (proofs.zip claims)) then return verifyBatchConsistency (claimPairs claims)
  else return false

/-! ## Reading credentials -/

def credentialPrivacy (credentialId : Nat) : Contract PrivacyLevel := do
  return (← storageGet (.credentialPrivacy credentialId)).getD .publicLevel

def setCredentialPrivacy (credentialId : Nat) (level : PrivacyLevel) : Contract Unit := do
  requireAdmin
  let hashes : Option (Bytes32 × Bytes32) ← storageGet (.credentialHashes credentialId)
  require (hashes.isSome = true) .credentialNotFound
  storageSet (.credentialPrivacy credentialId) level

/-- The record without its oracle; that it was redacted is recorded. -/
def redactAttestationRecord (record : AttestationRecord) : Contract AttestationRecord := do
  let maskedFields ← sha256 (toLeBytes (2 ^ attestationRecordFieldOracle))
  storageSet (.attestationMasking record.credentialId) ⟨maskedFields, 1⟩
  return { record with oracle := maskedOracle }

/-- The access rule of a privacy level: the admin may read everything, an oracle what
is not confidential. -/
def mayRead (requester : Address) (level : PrivacyLevel) : Contract Bool :=
  match level with
  | .publicLevel => pure true
  | .internal => do
      let admin ← isAdmin requester
      let oracle ← isOracle requester
      return admin || oracle
  | .confidential => isAdmin requester

def getAttestation (requester : Address) (credentialId : Nat) :
    Contract (Option AttestationRecord) := do
  requireAuth requester
  let record ← loadAttestationRecord credentialId
  ifSomeElse record
    (fun r => do
      let level ← credentialPrivacy credentialId
      if (← mayRead requester level) then return some r
      else if level = .confidential then do
        let redacted ← redactAttestationRecord r
        return some redacted
      else abort (.error .accessDenied))
    (pure none)

def gateSnapshotForPrivacy (requester : Address) (credentialId : Nat)
    (snapshot : CredentialSnapshot) : Contract CredentialSnapshot := do
  let level ← credentialPrivacy credentialId
  require ((← mayRead requester level) = true) .accessDenied
  return snapshot

def loadSnapshotByVersion (credentialId version : Nat) : Contract (Option CredentialSnapshot) := do
  let versions : Option (List Nat) ← storageGet (.credentialSnapshotVersions credentialId)
  let timestamps : Option (List Nat) ← storageGet (.credentialSnapshotTimestamps credentialId)
  let found := do
    let index ← (← versions).findIdx? (· = version)
    (← timestamps)[index]?
  ifSomeElse found (fun time => storageGet (.credentialSnapshot credentialId time)) (pure none)

/-- The binary search for the first retained time after `time`, in the window from
`lo` to `hi`, which is at most `fuel` long. -/
def searchFrom (timestamps : List Nat) (time : Nat) : Nat → Nat → Nat → Contract Nat
  | 0, lo, _ => pure lo
  | fuel + 1, lo, hi =>
      if lo < hi then do
        let mid := lo + (hi - lo) / 2
        let found ← fromSome timestamps[mid]? .trap
        if found ≤ time then searchFrom timestamps time fuel (mid + 1) hi
        else searchFrom timestamps time fuel lo mid
      else pure lo

def loadSnapshotAtOrBefore (credentialId time : Nat) : Contract (Option CredentialSnapshot) := do
  let timestamps : List Nat :=
    (← storageGet (.credentialSnapshotTimestamps credentialId)).getD []
  let lo ← searchFrom timestamps time timestamps.length 0 timestamps.length
  if lo = 0 then return none
  else do
    let found ← fromSome timestamps[lo - 1]? .trap
    storageGet (.credentialSnapshot credentialId found)

def credentialVersionCount (credentialId : Nat) : Contract Nat := do
  let versions : List Nat := (← storageGet (.credentialSnapshotVersions credentialId)).getD []
  return versions.getLast?.getD 0

def getCredentialVersion (requester : Address) (credentialId version : Nat) :
    Contract (Option CredentialSnapshot) := do
  requireAuth requester
  let snapshot ← loadSnapshotByVersion credentialId version
  ifSomeElse snapshot
    (fun x => do
      let gated ← gateSnapshotForPrivacy requester credentialId x
      return some gated)
    (pure none)

def getCredentialAtTime (requester : Address) (credentialId time : Nat) :
    Contract (Option CredentialSnapshot) := do
  requireAuth requester
  let snapshot ← loadSnapshotAtOrBefore credentialId time
  ifSomeElse snapshot
    (fun x => do
      let gated ← gateSnapshotForPrivacy requester credentialId x
      return some gated)
    (pure none)

def diffCredentialVersions (requester : Address) (credentialId fromVersion toVersion : Nat) :
    Contract CredentialVersionDiff := do
  requireAuth requester
  let old ← fromSome (← loadSnapshotByVersion credentialId fromVersion) (.error .versionNotFound)
  let new ← fromSome (← loadSnapshotByVersion credentialId toVersion) (.error .versionNotFound)
  let old ← gateSnapshotForPrivacy requester credentialId old
  let new ← gateSnapshotForPrivacy requester credentialId new
  return ⟨credentialId, fromVersion, toVersion, old.timestamp, new.timestamp,
    decide (old.oracle ≠ new.oracle), old.oracle, new.oracle,
    decide (old.invalidated ≠ new.invalidated), old.invalidated, new.invalidated⟩

/-! ## Calls -/

/-- The entry points that may change the storage. -/
inductive Call
  | initializeContract (admin : Address)
  | registerOracle (oracle : Address)
  | revokeOracle (oracle : Address)
  | attest (oracle : Address) (proof claim : Bytes)
  | createDerivedCredential (oracle : Address) (parentId : Nat) (proof claim : Bytes)
  | rescheduleConsistencyCheck (credentialId : Nat)
  | setDisputeThreshold (threshold : Nat)
  | initiateCredentialDispute (credentialId : Nat) (initiator : Address) (reason : Bytes)
  | voteOnDispute (disputeId : Nat) (voter : Address) (vote : Bool)
  | verifyClaim (proof claim : Bytes)
  | verifyLatticeProof (proof claim : Bytes)
  | maskProofFields (proof : Bytes) (fieldsToMask : List Nat)
  | verifyMaskedProof (maskedProof claim : Bytes)
  | verifyConditionalProof (proof condition : Bytes)
  | verifyCredentialsConsistent (proofs claims : List Bytes)
  | setCredentialPrivacy (credentialId : Nat) (level : PrivacyLevel)
  | getAttestation (requester : Address) (credentialId : Nat)

def exec : Call → Contract Unit
  | .initializeContract a => initializeContract a
  | .registerOracle a => registerOracle a
  | .revokeOracle a => revokeOracle a
  | .attest a p c => do let _ ← attest a p c
  | .createDerivedCredential a i p c => do let _ ← createDerivedCredential a i p c
  | .rescheduleConsistencyCheck i => rescheduleConsistencyCheck i
  | .setDisputeThreshold n => setDisputeThreshold n
  | .initiateCredentialDispute i a r => do let _ ← initiateCredentialDispute i a r
  | .voteOnDispute i a b => voteOnDispute i a b
  | .verifyClaim p c => do let _ ← verifyClaim p c
  | .verifyLatticeProof p c => do let _ ← verifyLatticeProof p c
  | .maskProofFields p l => do let _ ← maskProofFields p l
  | .verifyMaskedProof p c => do let _ ← verifyMaskedProof p c
  | .verifyConditionalProof p c => do let _ ← verifyConditionalProof p c
  | .verifyCredentialsConsistent ps cs => do let _ ← verifyCredentialsConsistent ps cs
  | .setCredentialPrivacy i l => setCredentialPrivacy i l
  | .getAttestation a i => do let _ ← getAttestation a i

end Heirloom.Verifier
