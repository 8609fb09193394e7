import Mathlib.Data.UInt
import Heirloom.Lib.Buckets

/-!
# WebAuthn registration and authentication

The relying party keeps the credentials of its users and the sessions that are under way.
A request reads and writes them in sections, each under one lock; what it does without a
lock belongs to the section before it. Each definition below is one section, so that the
requests of several clients can interleave between them.

Encodings, hashes and signatures come from other packages and are a parameter, `Platform`.
-/

namespace Heirloom.Backend.WebAuthn

abbrev Bytes := List UInt8

/-! ## What other packages provide -/

/-- A CBOR value, as far as the code looks into one. -/
inductive CborValue
  | integer (n : Int)
  | bytes (b : Bytes)
  | text (t : String)
  | map (entries : List (CborValue × CborValue))
  | other

namespace CborValue

def asInteger : CborValue → Option Int
  | .integer n => some n
  | _ => none

def asBytes : CborValue → Option Bytes
  | .bytes b => some b
  | _ => none

def asText : CborValue → Option String
  | .text t => some t
  | _ => none

def asMap : CborValue → Option (List (CborValue × CborValue))
  | .map entries => some entries
  | _ => none

end CborValue

/-- The functions of other packages. A JSON value is given by its string members, a public
key by its bytes. -/
structure Platform where
  b64urlEncode : Bytes → String
  b64urlDecode : String → Option Bytes
  jsonFromSlice : Bytes → Option (String → Option String)
  /-- The first value of the bytes and how many of them it takes. -/
  cborFromReader : Bytes → Except String (CborValue × Nat)
  sha256 : Bytes → Bytes
  p256FromSec1 : Bytes → Except String Unit
  ed25519FromBytes : Bytes → Except String Unit
  es256Verifies : (key message signature : Bytes) → Bool
  rs256Verifies : (n e message signature : Bytes) → Bool
  edDsaVerifies : (key message signature : Bytes) → Bool

/-! ## The relying party -/

def challengeTtlSecs : Nat := 300
def minCredentialIdLen : Nat := 16
def flagAttestedCredentialData : UInt8 := 0x40

inductive CoseAlgorithm
  | es256 | rs256 | edDsa
deriving DecidableEq

def CoseAlgorithm.coseId : CoseAlgorithm → Int
  | .es256 => -7
  | .rs256 => -257
  | .edDsa => -8

/-- Instants of the wall clock are in nanoseconds. -/
structure StoredCredential where
  credentialId : String
  userId : String
  publicKey : String
  algorithm : CoseAlgorithm
  signCount : UInt32
  isBackup : Bool
  label : Option String
  aaguid : Option String
  createdAt : Int
  lastUsedAt : Option Int
deriving DecidableEq

/-- A session between its begin and its completion. The two kinds have the same fields. -/
structure Pending where
  challenge : Bytes
  userId : String
  expiresAt : Nat

abbrev PendingRegistration := Pending
abbrev PendingAuthentication := Pending

structure WebAuthnState where
  credentials : Buckets String StoredCredential
  pendingRegistrations : AList fun _ : String => PendingRegistration
  pendingAuthentications : AList fun _ : String => PendingAuthentication
  rpId : String
  rpName : String
  origin : String

def WebAuthnState.new (rpId rpName origin : String) : WebAuthnState :=
  ⟨∅, ∅, ∅, rpId, rpName, origin⟩

/-- What a section reads of the clocks: the seconds since the epoch and the wall clock. -/
structure Moment where
  secs : Nat
  utc : Int

/-- The two results of `generate_challenge` of a request that begins a session. -/
structure Entropy where
  challenge : Bytes
  token : Bytes

structure Failure where
  status : Nat
  error : String
deriving DecidableEq

def badRequest (message : String) : Failure := ⟨400, message⟩
def unprocessable (message : String) : Failure := ⟨422, message⟩
def notFound (message : String) : Failure := ⟨404, message⟩

/-! ## Public keys -/

inductive ParsedPublicKey
  | es256 (key : Bytes)
  | rs256 (n e : Bytes)
  | edDsa (key : Bytes)

structure AttestedCredentialData where
  aaguid : Bytes
  credentialId : Bytes
  coseKeyBytes : Bytes

/-- The value under an integer key. -/
def cborMapGet (map : List (CborValue × CborValue)) (key : Int) : Option CborValue :=
  (map.find? fun e => e.1.asInteger = some key).map fun e => e.2

def cborMapGetInt (map : List (CborValue × CborValue)) (key : Int) : Option Int :=
  (cborMapGet map key).bind CborValue.asInteger

def cborMapGetBytes (map : List (CborValue × CborValue)) (key : Int) : Option Bytes :=
  (cborMapGet map key).bind CborValue.asBytes

/-- `ok_or`. -/
def okOr {ε α : Type} (x : Option α) (e : ε) : Except ε α :=
  match x with
  | some a => .ok a
  | none => .error e

def parseAttestedCredentialData (p : Platform) (authData : Bytes) :
    Except String AttestedCredentialData := do
  if authData.length < 37 then
    throw "authenticator data shorter than the fixed-size header"
  if authData.getD 32 0 &&& flagAttestedCredentialData = 0 then
    throw "authenticator data has no attested credential data"
  if authData.length < 37 + 16 + 2 then
    throw "authenticator data truncated before attested credential data"
  let aaguid := (authData.drop 37).take 16
  let credIdLen := (authData.getD 53 0).toNat * 256 + (authData.getD 54 0).toNat
  let credIdEnd := 55 + credIdLen
  if authData.length < credIdEnd then
    throw "authenticator data truncated before credential ID"
  let credentialId := (authData.drop 55).take credIdLen
  let keySlice := authData.drop credIdEnd
  let (_, position) ← (p.cborFromReader keySlice).mapError ("invalid COSE_Key CBOR: " ++ ·)
  return ⟨aaguid, credentialId, keySlice.take position⟩

def parseCosePublicKey (p : Platform) (coseKeyBytes : Bytes) :
    Except String (ParsedPublicKey × CoseAlgorithm) := do
  let (value, _) ← (p.cborFromReader coseKeyBytes).mapError ("invalid COSE_Key CBOR: " ++ ·)
  let map ← okOr value.asMap "COSE_Key is not a CBOR map"
  let kty ← okOr (cborMapGetInt map 1) "COSE_Key missing kty (label 1)"
  let alg ← okOr (cborMapGetInt map 3) "COSE_Key missing alg (label 3)"
  if kty = 2 ∧ alg = -7 then
    let crv ← okOr (cborMapGetInt map (-1)) "EC2 key missing crv (label -1)"
    if crv ≠ 1 then
      throw ("unsupported EC curve " ++ toString crv ++ ", expected P-256 (1)")
    let x ← okOr (cborMapGetBytes map (-2)) "EC2 key missing x (label -2)"
    let y ← okOr (cborMapGetBytes map (-3)) "EC2 key missing y (label -3)"
    let sec1 := 0x04 :: x ++ y
    (p.p256FromSec1 sec1).mapError ("invalid P-256 public key: " ++ ·)
    return (.es256 sec1, .es256)
  else if kty = 1 ∧ alg = -8 then
    let crv ← okOr (cborMapGetInt map (-1)) "OKP key missing crv (label -1)"
    if crv ≠ 6 then
      throw ("unsupported OKP curve " ++ toString crv ++ ", expected Ed25519 (6)")
    let x ← okOr (cborMapGetBytes map (-2)) "OKP key missing x (label -2)"
    if x.length ≠ 32 then
      throw "Ed25519 public key must be 32 bytes"
    (p.ed25519FromBytes x).mapError ("invalid Ed25519 public key: " ++ ·)
    return (.edDsa x, .edDsa)
  else if kty = 3 ∧ alg = -257 then
    let n ← okOr (cborMapGetBytes map (-1)) "RSA key missing n (label -1)"
    let e ← okOr (cborMapGetBytes map (-2)) "RSA key missing e (label -2)"
    if n.isEmpty ∨ e.isEmpty then
      throw "invalid RSA public key: empty modulus or exponent"
    return (.rs256 n e, .rs256)
  else
    throw ("unsupported COSE key type/algorithm combination: kty=" ++ toString kty ++ ", alg=" ++
      toString alg)

def signedMessage (p : Platform) (authData clientDataRaw : Bytes) : Bytes :=
  authData ++ p.sha256 clientDataRaw

/-- Whether the signature verifies; the caller drops the reason why it does not. -/
def verifyAssertionSignature (p : Platform) (publicKeyBytes : Bytes) (algorithm : CoseAlgorithm)
    (message signature : Bytes) : Bool :=
  match parseCosePublicKey p publicKeyBytes with
  | .error _ => false
  | .ok (key, parsedAlgorithm) =>
      if parsedAlgorithm ≠ algorithm then false
      else match key with
        | .es256 key => p.es256Verifies key message signature
        | .rs256 n e => p.rs256Verifies n e message signature
        | .edDsa key => signature.length = 64 && p.edDsaVerifies key message signature

/-! ## Requests and responses -/

structure BeginRegistrationRequest where
  userId : String
  userName : String
  label : Option String
  isBackup : Bool

structure RpInfo where
  id : String
  name : String

structure UserInfo where
  id : String
  name : String
  displayName : String

structure PubKeyCredParam where
  kind : String
  alg : Int

structure BeginRegistrationResponse where
  sessionId : String
  rp : RpInfo
  user : UserInfo
  challenge : String
  pubKeyCredParams : List PubKeyCredParam
  timeoutMs : Nat
  attestation : String

structure CompleteRegistrationRequest where
  sessionId : String
  credentialId : String
  clientDataJson : String
  attestationObject : String
  label : Option String
  isBackup : Bool

structure CompleteRegistrationResponse where
  credentialId : String
  userId : String
  isBackup : Bool
  label : Option String
  createdAt : Int

structure BeginAuthenticationRequest where
  userId : String

structure AllowCredential where
  kind : String
  id : String

structure BeginAuthenticationResponse where
  sessionId : String
  challenge : String
  timeoutMs : Nat
  rpId : String
  allowCredentials : List AllowCredential
  userVerification : String

structure CompleteAuthenticationRequest where
  sessionId : String
  credentialId : String
  clientDataJson : String
  authenticatorData : String
  signature : String

structure CompleteAuthenticationResponse where
  userId : String
  credentialId : String
  signCount : UInt32
  authenticatedAt : Int

structure AddBackupAuthenticatorRequest where
  userId : String
  label : Option String

/-- The response of `add_backup_authenticator` that begins a registration. -/
structure BackupChallenge where
  sessionId : String
  challenge : String
  isBackup : Bool
  message : String
  pubKeyCredParams : List PubKeyCredParam
  timeoutMs : Nat

def publicKeyParam (algorithm : CoseAlgorithm) : PubKeyCredParam :=
  ⟨"public-key", algorithm.coseId⟩

/-! ## Beginning a session -/

/-- A session for `userId` under a random name. -/
def newSession (p : Platform) (userId : String) (now : Moment) (entropy : Entropy) :
    String × Pending :=
  (p.b64urlEncode entropy.token, ⟨entropy.challenge, userId, now.secs + challengeTtlSecs⟩)

def openRegistration (p : Platform) (s : WebAuthnState) (userId : String) (now : Moment)
    (entropy : Entropy) : WebAuthnState :=
  let (sessionId, pending) := newSession p userId now entropy
  { s with pendingRegistrations := s.pendingRegistrations.insert sessionId pending }

def openAuthentication (p : Platform) (s : WebAuthnState) (userId : String) (now : Moment)
    (entropy : Entropy) : WebAuthnState :=
  let (sessionId, pending) := newSession p userId now entropy
  { s with pendingAuthentications := s.pendingAuthentications.insert sessionId pending }

def beginRegistration (p : Platform) (s : WebAuthnState) (body : BeginRegistrationRequest)
    (now : Moment) (entropy : Entropy) : Except Failure BeginRegistrationResponse × WebAuthnState :=
  if body.userId = "" then (.error (unprocessable "user_id must not be empty"), s)
  else if body.userName = "" then (.error (unprocessable "user_name must not be empty"), s)
  else
    (.ok
      { sessionId := p.b64urlEncode entropy.token
        rp := ⟨s.rpId, s.rpName⟩
        user := ⟨p.b64urlEncode body.userId.toUTF8.data.toList, body.userName, body.userName⟩
        challenge := p.b64urlEncode entropy.challenge
        pubKeyCredParams := [publicKeyParam .es256, publicKeyParam .edDsa, publicKeyParam .rs256]
        timeoutMs := challengeTtlSecs * 1000
        attestation := "none" },
      openRegistration p s body.userId now entropy)

/-- The first section of `begin_authentication` builds the list of credentials to choose from. -/
def allowedCredentials (s : WebAuthnState) (body : BeginAuthenticationRequest) :
    Except Failure (List AllowCredential) :=
  if body.userId = "" then .error (unprocessable "user_id must not be empty")
  else
    let allow := (s.credentials.bucket body.userId).map fun c => ⟨"public-key", c.credentialId⟩
    if allow.isEmpty then .error (notFound "no credentials registered for this user")
    else .ok allow

/-- The second section of `begin_authentication`. -/
def beginAuthentication (p : Platform) (s : WebAuthnState) (userId : String)
    (allow : List AllowCredential) (now : Moment) (entropy : Entropy) :
    BeginAuthenticationResponse × WebAuthnState :=
  ({ sessionId := p.b64urlEncode entropy.token
     challenge := p.b64urlEncode entropy.challenge
     timeoutMs := challengeTtlSecs * 1000
     rpId := s.rpId
     allowCredentials := allow
     userVerification := "preferred" },
    openAuthentication p s userId now entropy)

/-! ## Completing a registration -/

/-- The checks of the client data that both completions make; its bytes are returned. -/
def verifyClientData (p : Platform) (origin kind clientDataJson : String) (challenge : Bytes) :
    Except Failure Bytes := do
  let clientDataRaw ← okOr (p.b64urlDecode clientDataJson)
    (badRequest "invalid client_data_json encoding")
  let clientData ← okOr (p.jsonFromSlice clientDataRaw)
    (badRequest "client_data_json is not valid JSON")
  if clientData "type" ≠ some kind then
    throw (badRequest "unexpected client data type")
  if (clientData "challenge").getD "" ≠ p.b64urlEncode challenge then
    throw (badRequest "challenge mismatch")
  if (clientData "origin").getD "" ≠ origin then
    throw (badRequest "origin mismatch")
  return clientDataRaw

/-- Steps 2 to 5 of `complete_registration`, which need no lock. -/
def validateRegistration (p : Platform) (origin : String) (body : CompleteRegistrationRequest)
    (pending : PendingRegistration) (now : Moment) :
    Except Failure (AttestedCredentialData × CoseAlgorithm) := do
  if pending.expiresAt < now.secs then
    throw (badRequest "registration challenge expired")
  let credIdBytes ← okOr (p.b64urlDecode body.credentialId)
    (badRequest "invalid credential_id encoding")
  if credIdBytes.length < minCredentialIdLen then
    throw (badRequest "credential_id too short")
  let _ ← verifyClientData p origin "webauthn.create" body.clientDataJson pending.challenge
  let attestationBytes ← okOr (p.b64urlDecode body.attestationObject)
    (badRequest "invalid attestation_object encoding")
  let (attestationValue, _) ← (p.cborFromReader attestationBytes).mapError
    fun e => badRequest ("invalid attestation object CBOR: " ++ e)
  let attestationMap ← okOr attestationValue.asMap
    (badRequest "attestation object is not a CBOR map")
  let authData ← okOr
    ((attestationMap.find? fun e => e.1.asText = some "authData").bind fun e => e.2.asBytes)
    (badRequest "attestation object missing authData")
  let attested ← (parseAttestedCredentialData p authData).mapError
    fun e => badRequest ("could not parse attested credential data: " ++ e)
  if attested.credentialId ≠ credIdBytes then
    throw (badRequest "credential_id does not match the credential ID embedded in authData")
  let (_, algorithm) ← (parseCosePublicKey p attested.coseKeyBytes).mapError
    fun e => badRequest ("could not parse public key: " ++ e)
  return (attested, algorithm)

/-- A registration whose session has been taken and whose data are valid. `claimedAt` is the
clock that its session was checked against, which the code does not keep. -/
structure Registration where
  body : CompleteRegistrationRequest
  pending : PendingRegistration
  attested : AttestedCredentialData
  algorithm : CoseAlgorithm
  claimedAt : Nat

/-- The first section of `complete_registration`: the session is taken, whatever comes of it. -/
def claimRegistration (p : Platform) (s : WebAuthnState) (body : CompleteRegistrationRequest)
    (now : Moment) : Except Failure Registration × WebAuthnState :=
  match s.pendingRegistrations.lookup body.sessionId with
  | none => (.error (badRequest "unknown or expired session"), s)
  | some pending =>
      ((validateRegistration p s.origin body pending now).map
          fun (attested, algorithm) => ⟨body, pending, attested, algorithm, now.secs⟩,
        { s with pendingRegistrations := s.pendingRegistrations.erase body.sessionId })

def hexEncode (bytes : Bytes) : String :=
  String.ofList (bytes.flatMap fun b =>
    [Nat.digitChar (b.toNat / 16), Nat.digitChar (b.toNat % 16)])

def Registration.label (r : Registration) : Option String :=
  r.body.label.or (if r.body.isBackup then some "Backup Authenticator" else none)

def Registration.credential (p : Platform) (r : Registration) (now : Moment) :
    StoredCredential where
  credentialId := r.body.credentialId
  userId := r.pending.userId
  publicKey := p.b64urlEncode r.attested.coseKeyBytes
  algorithm := r.algorithm
  signCount := 0
  isBackup := r.body.isBackup
  label := r.label
  aaguid := some (hexEncode r.attested.aaguid)
  createdAt := now.utc
  lastUsedAt := none

/-- The second section: no user has the credential. -/
def checkDuplicate (p : Platform) (s : WebAuthnState) (r : Registration) (now : Moment) :
    Except Failure StoredCredential :=
  if s.credentials.values.any fun c => c.credentialId = r.body.credentialId then
    .error ⟨409, "credential already registered"⟩
  else .ok (r.credential p now)

/-- The third section: the credential is stored. -/
def persistCredential (s : WebAuthnState) (r : Registration) (credential : StoredCredential)
    (now : Moment) : CompleteRegistrationResponse × WebAuthnState :=
  (⟨r.body.credentialId, r.pending.userId, r.body.isBackup, r.label, now.utc⟩,
    { s with credentials := s.credentials.push r.pending.userId credential })

/-! ## Completing an authentication -/

/-- The big-endian number at bytes 33 to 36 of the authenticator data, 0 when they end before. -/
def readSignCount (authData : Bytes) : UInt32 :=
  if 37 ≤ authData.length then
    UInt32.ofNat ((((authData.getD 33 0).toNat * 256 + (authData.getD 34 0).toNat) * 256 +
      (authData.getD 35 0).toNat) * 256 + (authData.getD 36 0).toNat)
  else 0

/-- An authentication whose session has been taken and whose data have been read. -/
structure Authentication where
  body : CompleteAuthenticationRequest
  pending : PendingAuthentication
  clientDataRaw : Bytes
  authData : Bytes
  sigBytes : Bytes
  claimedAt : Nat

def Authentication.newSignCount (a : Authentication) : UInt32 := readSignCount a.authData

/-- What `complete_authentication` checks between its two sections. -/
def validateAuthentication (p : Platform) (origin : String) (body : CompleteAuthenticationRequest)
    (pending : PendingAuthentication) (now : Moment) : Except Failure Authentication := do
  if pending.expiresAt < now.secs then
    throw (badRequest "authentication challenge expired")
  let clientDataRaw ← verifyClientData p origin "webauthn.get" body.clientDataJson
    pending.challenge
  let authData ← okOr (p.b64urlDecode body.authenticatorData)
    (badRequest "invalid authenticator_data encoding")
  let sigBytes ← okOr (p.b64urlDecode body.signature) (badRequest "invalid signature encoding")
  if sigBytes.isEmpty then
    throw (badRequest "signature must not be empty")
  return ⟨body, pending, clientDataRaw, authData, sigBytes, now.secs⟩

/-- The first section of `complete_authentication`. -/
def claimAuthentication (p : Platform) (s : WebAuthnState) (body : CompleteAuthenticationRequest)
    (now : Moment) : Except Failure Authentication × WebAuthnState :=
  match s.pendingAuthentications.lookup body.sessionId with
  | none => (.error (badRequest "unknown or expired session"), s)
  | some pending =>
      (validateAuthentication p s.origin body pending now,
        { s with pendingAuthentications := s.pendingAuthentications.erase body.sessionId })

/-- The credential of a user, the first of them with the identifier. -/
def WebAuthnState.credential (s : WebAuthnState) (userId credentialId : String) :
    Option StoredCredential :=
  (s.credentials.bucket userId).find? fun c => c.credentialId = credentialId

/-- Changes the first credential with the identifier in the list of a user. -/
def updateCredential (creds : List StoredCredential) (credentialId : String)
    (change : StoredCredential → StoredCredential) : List StoredCredential :=
  creds.lookmap fun c => if c.credentialId = credentialId then some (change c) else none

/-- Steps 5 and 6 of `complete_authentication`: the credential that the signature proves. -/
def authenticCredential (p : Platform) (s : WebAuthnState) (a : Authentication) :
    Except Failure StoredCredential := do
  let creds ← okOr (s.credentials.lookup a.pending.userId) (notFound "no credentials for user")
  let cred ← okOr (creds.find? fun c => c.credentialId = a.body.credentialId)
    (notFound "credential not found")
  let publicKeyBytes ← okOr (p.b64urlDecode cred.publicKey)
    ⟨500, "stored credential public key is corrupted"⟩
  if ¬ verifyAssertionSignature p publicKeyBytes cred.algorithm
      (signedMessage p a.authData a.clientDataRaw) a.sigBytes then
    throw ⟨401, "assertion signature verification failed"⟩
  return cred

/-- The second section of `complete_authentication`: the counter check and the update. -/
def authenticate (p : Platform) (s : WebAuthnState) (a : Authentication) (now : Moment) :
    Except Failure CompleteAuthenticationResponse × WebAuthnState :=
  match authenticCredential p s a with
  | .error e => (.error e, s)
  | .ok cred =>
      if a.newSignCount ≠ 0 ∧ a.newSignCount ≤ cred.signCount then
        (.error ⟨403, "authenticator clone detected: sign count did not increase"⟩, s)
      else
        let creds := updateCredential (s.credentials.bucket a.pending.userId) a.body.credentialId
          fun c => { c with signCount := a.newSignCount, lastUsedAt := some now.utc }
        (.ok ⟨a.pending.userId, a.body.credentialId, a.newSignCount, now.utc⟩,
          { s with credentials := s.credentials.replace a.pending.userId creds })

/-! ## Managing credentials -/

def lastCredential : Failure := ⟨409, "cannot remove the last credential for a user"⟩

/-- `remove_credential`: the check comes after the list has been cut. -/
def removeCredential (s : WebAuthnState) (userId credId : String) :
    Except Failure Unit × WebAuthnState :=
  match s.credentials.lookup userId with
  | none => (.error (notFound "user not found"), s)
  | some creds =>
      let kept := creds.filter fun c => c.credentialId ≠ credId
      let s' := { s with credentials := s.credentials.replace userId kept }
      if kept.length = creds.length then (.error (notFound "credential not found"), s')
      else
        let primaries := kept.countP fun c => ¬ c.isBackup
        let backups := kept.countP fun c => c.isBackup
        if primaries = 0 ∧ backups = 0 then (.error lastCredential, s')
        else (.ok (), s')

/-- The first section of `add_backup_authenticator` marks a credential that exists. -/
def markBackup (s : WebAuthnState) (userId credId : String)
    (body : AddBackupAuthenticatorRequest) : Option WebAuthnState :=
  match s.credentials.lookup userId with
  | none => none
  | some creds =>
      if creds.any fun c => c.credentialId = credId then
        let marked := updateCredential creds credId fun c =>
          { c with isBackup := true, label := body.label.or c.label }
        some { s with credentials := s.credentials.replace userId marked }
      else none

/-- The second section of `add_backup_authenticator`. -/
def beginBackup (p : Platform) (s : WebAuthnState) (userId : String) (now : Moment)
    (entropy : Entropy) : BackupChallenge × WebAuthnState :=
  ({ sessionId := p.b64urlEncode entropy.token
     challenge := p.b64urlEncode entropy.challenge
     isBackup := true
     message := "complete registration with is_backup=true to add backup authenticator"
     pubKeyCredParams := [publicKeyParam .es256, publicKeyParam .edDsa]
     timeoutMs := challengeTtlSecs * 1000 },
    openRegistration p s userId now entropy)

/-! ## What the sections do -/

section Effects

variable {p : Platform} {s : WebAuthnState} {now : Moment} {origin : String}

theorem bind_eq_ok {ε α β : Type} {x : Except ε α} {f : α → Except ε β} {b : β}
    (h : x >>= f = .ok b) : ∃ a, x = .ok a ∧ f a = .ok b := by
  cases x with
  | error e => cases h
  | ok a => exact ⟨a, rfl, h⟩

theorem okOr_eq_ok {ε α : Type} {x : Option α} {e : ε} {a : α} (h : okOr x e = .ok a) :
    x = some a := by
  cases x with
  | none => cases h
  | some b =>
      cases h
      rfl

theorem validateRegistration_ok {body : CompleteRegistrationRequest}
    {pending : PendingRegistration} {data : AttestedCredentialData × CoseAlgorithm}
    (h : validateRegistration p origin body pending now = .ok data) :
    now.secs ≤ pending.expiresAt := by
  unfold validateRegistration at h
  by_cases hlate : pending.expiresAt < now.secs
  · rw [if_pos hlate] at h
    cases h
  · exact not_lt.mp hlate

theorem validateAuthentication_ok {body : CompleteAuthenticationRequest}
    {pending : PendingAuthentication} {a : Authentication}
    (h : validateAuthentication p origin body pending now = .ok a) :
    a.body = body ∧ a.pending = pending ∧ a.claimedAt = now.secs ∧
      now.secs ≤ pending.expiresAt := by
  unfold validateAuthentication at h
  by_cases hlate : pending.expiresAt < now.secs
  · rw [if_pos hlate] at h
    cases h
  · rw [if_neg hlate] at h
    obtain ⟨clientDataRaw, -, h⟩ := bind_eq_ok h
    obtain ⟨authData, -, h⟩ := bind_eq_ok h
    obtain ⟨sigBytes, -, h⟩ := bind_eq_ok h
    dsimp only at h
    split at h
    · cases h
    · cases h
      exact ⟨rfl, rfl, rfl, not_lt.mp hlate⟩

/-- The credential whose signature is checked is the first one with its identifier. -/
theorem authenticCredential_ok {a : Authentication} {cred : StoredCredential}
    (h : authenticCredential p s a = .ok cred) :
    (∃ creds, s.credentials.lookup a.pending.userId = some creds) ∧
      s.credential a.pending.userId a.body.credentialId = some cred := by
  unfold authenticCredential at h
  obtain ⟨creds, hlookup, h⟩ := bind_eq_ok h
  obtain ⟨cred', hfind, h⟩ := bind_eq_ok h
  obtain ⟨key, -, h⟩ := bind_eq_ok h
  have hcred : cred' = cred := by
    dsimp only at h
    split at h
    · cases h
    · exact Except.ok.inj h
  have hcreds : s.credentials.lookup a.pending.userId = some creds := okOr_eq_ok hlookup
  refine ⟨⟨creds, hcreds⟩, ?_⟩
  unfold WebAuthnState.credential
  rw [Buckets.bucket_of_lookup hcreds, ← hcred]
  exact okOr_eq_ok hfind

/-- What `remove_credential` does: nothing to an unknown user or credential; otherwise the
list is cut, and the request succeeds exactly if a credential is left. -/
inductive Removes (s : WebAuthnState) (userId credId : String) :
    Except Failure Unit × WebAuthnState → Prop
  | unknown (hlookup : s.credentials.lookup userId = none) :
      Removes s userId credId (.error (notFound "user not found"), s)
  | missing {creds : List StoredCredential} (hlookup : s.credentials.lookup userId = some creds)
      (hmissing : ∀ c ∈ creds, c.credentialId ≠ credId) :
      Removes s userId credId (.error (notFound "credential not found"), s)
  | last {creds : List StoredCredential} (hlookup : s.credentials.lookup userId = some creds)
      (hne : creds ≠ []) (hall : ∀ c ∈ creds, c.credentialId = credId) :
      Removes s userId credId
        (.error lastCredential, { s with credentials := s.credentials.replace userId [] })
  | removed {creds kept : List StoredCredential}
      (hlookup : s.credentials.lookup userId = some creds)
      (hkept : kept = creds.filter fun c => c.credentialId ≠ credId)
      (hstored : ∃ c ∈ creds, c.credentialId = credId) (hne : kept ≠ []) :
      Removes s userId credId
        (.ok (), { s with credentials := s.credentials.replace userId kept })

theorem removeCredential_removes (s : WebAuthnState) (userId credId : String) :
    Removes s userId credId (removeCredential s userId credId) := by
  unfold removeCredential
  cases hlookup : s.credentials.lookup userId with
  | none => exact .unknown hlookup
  | some creds =>
      dsimp only
      by_cases hstored : ∃ c ∈ creds, c.credentialId = credId
      · have hfewer : (creds.filter fun c => c.credentialId ≠ credId).length ≠ creds.length := by
          obtain ⟨c, hc, hid⟩ := hstored
          rw [Ne, List.length_filter_eq_length_iff]
          intro hall
          have hne : c.credentialId ≠ credId := of_decide_eq_true (hall c hc)
          exact hne hid
        rw [if_neg hfewer]
        by_cases hempty : (creds.filter fun c => c.credentialId ≠ credId) = []
        · rw [hempty, if_pos ⟨rfl, rfl⟩]
          refine .last hlookup ?_ ?_
          · rintro rfl
            obtain ⟨c, hc, -⟩ := hstored
            cases hc
          · intro c hc
            have hout : ¬ c.credentialId ≠ credId := by
              simpa using List.filter_eq_nil_iff.mp hempty c hc
            exact not_not.mp hout
        · rw [if_neg ?_]
          · exact .removed hlookup rfl hstored hempty
          · rintro ⟨hprimaries, hbackups⟩
            obtain ⟨c, hc⟩ := List.exists_mem_of_ne_nil _ hempty
            have hprimary : ¬ decide (¬ c.isBackup = true) = true :=
              List.countP_eq_zero.mp hprimaries c hc
            have hbackup : ¬ c.isBackup = true := List.countP_eq_zero.mp hbackups c hc
            exact hprimary (decide_eq_true hbackup)
      · have hmissing : ∀ c ∈ creds, c.credentialId ≠ credId :=
          fun c hc hid => hstored ⟨c, hc, hid⟩
        have hsame : (creds.filter fun c => c.credentialId ≠ credId) = creds :=
          List.filter_eq_self.mpr fun c hc => decide_eq_true (hmissing c hc)
        rw [hsame, if_pos rfl, Buckets.replace_self hlookup]
        exact .missing hlookup hmissing

end Effects

end Heirloom.Backend.WebAuthn
