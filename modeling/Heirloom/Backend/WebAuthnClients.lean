import Heirloom.Backend.WebAuthn
import Heirloom.Lib.Runs
import Heirloom.Lib.Tickets

/-!
# Clients of the relying party

Any number of clients send requests. A client whose request is under way goes on with its next
section whenever it is scheduled, so that the sections of all clients interleave in every
order. `Served` says what one section can do; the results about whole runs go by its cases.
-/

namespace Heirloom.Backend.WebAuthn

open Runs Tickets

/-! ## The system -/

inductive Request
  | beginRegistration (body : BeginRegistrationRequest)
  | completeRegistration (body : CompleteRegistrationRequest)
  | beginAuthentication (body : BeginAuthenticationRequest)
  | completeAuthentication (body : CompleteAuthenticationRequest)
  | removeCredential (userId credId : String)
  | addBackupAuthenticator (userId credId : String) (body : AddBackupAuthenticatorRequest)

/-- What is left to do of the request of a client. -/
inductive Work
  | idle
  | checking (r : Registration)
  | storing (r : Registration) (credential : StoredCredential)
  | authenticating (a : Authentication)
  | opening (userId : String) (allow : List AllowCredential)
  | backing (userId : String)

inductive Kind
  | registration | authentication
deriving DecidableEq

/-- A session with its user and the time at which it was begun, or taken. -/
abbrev Session := Ticket Kind String String

def Registration.session (r : Registration) : Session :=
  ⟨.registration, r.body.sessionId, r.pending.userId, r.claimedAt⟩

def Authentication.session (a : Authentication) : Session :=
  ⟨.authentication, a.body.sessionId, a.pending.userId, a.claimedAt⟩

/-- What a section has done. A request that is over has ended with one of these; `quiet` stands
for a section after which the request goes on and for marking a backup. -/
inductive Event
  | begun (session : Session)
  | checked (credentialId : String)
  | registered (session : Session) (credentialId : String)
  | authenticated (session : Session) (credentialId : String) (signCount : UInt32)
  | removal (userId credId : String) (result : Except Failure Unit)
  | refused (failure : Failure)
  | quiet

/-- The server and its clients. `names` are all session ids so far and `enrolled` the users
that have registered, which the code does not keep. -/
structure System where
  server : WebAuthnState
  clients : Nat → Work
  names : List String
  enrolled : List String

def System.new (rpId rpName origin : String) : System :=
  ⟨.new rpId rpName origin, fun _ => .idle, [], []⟩

/-- A client sends a request, or goes on with the one it has sent. -/
structure Action where
  client : Nat
  request : Option Request
  now : Moment
  entropy : Entropy

/-- The first section of a request. -/
def begin (p : Platform) (s : WebAuthnState) (now : Moment) (entropy : Entropy) :
    Request → Event × Work × WebAuthnState
  | .beginRegistration body =>
      match beginRegistration p s body now entropy with
      | (.error f, s) => (.refused f, .idle, s)
      | (.ok response, s) =>
          (.begun ⟨.registration, response.sessionId, body.userId, now.secs⟩, .idle, s)
  | .completeRegistration body =>
      match claimRegistration p s body now with
      | (.error f, s) => (.refused f, .idle, s)
      | (.ok r, s) => (.quiet, .checking r, s)
  | .beginAuthentication body =>
      match allowedCredentials s body with
      | .error f => (.refused f, .idle, s)
      | .ok allow => (.quiet, .opening body.userId allow, s)
  | .completeAuthentication body =>
      match claimAuthentication p s body now with
      | (.error f, s) => (.refused f, .idle, s)
      | (.ok a, s) => (.quiet, .authenticating a, s)
  | .removeCredential userId credId =>
      let (result, s) := removeCredential s userId credId
      (.removal userId credId result, .idle, s)
  | .addBackupAuthenticator userId credId body =>
      match markBackup s userId credId body with
      | some s => (.quiet, .idle, s)
      | none => (.quiet, .backing userId, s)

/-- The next section of a request that is under way. -/
def resume (p : Platform) (s : WebAuthnState) (now : Moment) (entropy : Entropy) :
    Work → Option (Event × Work × WebAuthnState)
  | .idle => none
  | .checking r =>
      match checkDuplicate p s r now with
      | .error f => some (.refused f, .idle, s)
      | .ok credential => some (.checked credential.credentialId, .storing r credential, s)
  | .storing r credential =>
      let (_, s) := persistCredential s r credential now
      some (.registered r.session credential.credentialId, .idle, s)
  | .authenticating a =>
      match authenticate p s a now with
      | (.error f, s) => some (.refused f, .idle, s)
      | (.ok response, s) =>
          some (.authenticated a.session response.credentialId response.signCount, .idle, s)
  | .opening userId allow =>
      let (response, s) := beginAuthentication p s userId allow now entropy
      some (.begun ⟨.authentication, response.sessionId, userId, now.secs⟩, .idle, s)
  | .backing userId =>
      let (response, s) := beginBackup p s userId now entropy
      some (.begun ⟨.registration, response.sessionId, userId, now.secs⟩, .idle, s)

/-- The section of an action, `none` when the client cannot do it. -/
def serve (p : Platform) (s : System) (a : Action) : Option (Event × Work × WebAuthnState) :=
  match a.request, s.clients a.client with
  | some request, .idle => some (begin p s.server a.now a.entropy request)
  | some _, _ => none
  | none, work => resume p s.server a.now a.entropy work

structure Label where
  action : Action
  event : Event

def Event.names : Event → List String
  | .begun session => [session.name]
  | _ => []

def Event.enrolled : Event → List String
  | .registered session _ => [session.owner]
  | _ => []

def System.after (s : System) (k : Label) (work : Work) (server : WebAuthnState) : System where
  server := server
  clients := Function.update s.clients k.action.client work
  names := k.event.names ++ s.names
  enrolled := k.event.enrolled ++ s.enrolled

/-- A section of a client. The names of sessions are fresh. -/
inductive Step (p : Platform) : System → Label → System → Prop
  | serve {s : System} {k : Label} {work : Work} {server : WebAuthnState}
      (hserve : serve p s k.action = some (k.event, work, server))
      (hfresh : ∀ name ∈ k.event.names, name ∉ s.names) :
      Step p s k (s.after k work server)

/-! ## What a section can do -/

/-- The change that marks a credential as a backup. -/
def marking (label : Option String) (c : StoredCredential) : StoredCredential :=
  { c with isBackup := true, label := label.or c.label }

/-- The change of a successful authentication. -/
def counting (a : Authentication) (now : Moment) (c : StoredCredential) : StoredCredential :=
  { c with signCount := a.newSignCount, lastUsedAt := some now.utc }

/-- A section of a client with its request, if it has sent one, and the work it has left: the
event, the work after it and the server. -/
inductive Served (p : Platform) (s : WebAuthnState) (now : Moment) :
    Option Request → Work → Event → Work → WebAuthnState → Prop
  | refused {q : Option Request} {work : Work} {f : Failure} :
      Served p s now q work (.refused f) .idle s
  | begunRegistration {q : Option Request} {work : Work} {userId : String} {entropy : Entropy} :
      Served p s now q work
        (.begun ⟨.registration, p.b64urlEncode entropy.token, userId, now.secs⟩) .idle
        (openRegistration p s userId now entropy)
  | begunAuthentication {q : Option Request} {work : Work} {userId : String} {entropy : Entropy} :
      Served p s now q work
        (.begun ⟨.authentication, p.b64urlEncode entropy.token, userId, now.secs⟩) .idle
        (openAuthentication p s userId now entropy)
  | spoiledRegistration {q : Option Request} {work : Work} {f : Failure} {sessionId : String} :
      Served p s now q work (.refused f) .idle
        { s with pendingRegistrations := s.pendingRegistrations.erase sessionId }
  | spoiledAuthentication {q : Option Request} {work : Work} {f : Failure}
      {sessionId : String} :
      Served p s now q work (.refused f) .idle
        { s with pendingAuthentications := s.pendingAuthentications.erase sessionId }
  | claimedRegistration {q : Option Request} {work : Work} {r : Registration}
      (hlookup : s.pendingRegistrations.lookup r.body.sessionId = some r.pending)
      (htime : r.claimedAt ≤ r.pending.expiresAt) :
      Served p s now q work .quiet (.checking r)
        { s with pendingRegistrations := s.pendingRegistrations.erase r.body.sessionId }
  | claimedAuthentication {q : Option Request} {work : Work} {a : Authentication}
      (hlookup : s.pendingAuthentications.lookup a.body.sessionId = some a.pending)
      (htime : a.claimedAt ≤ a.pending.expiresAt) :
      Served p s now q work .quiet (.authenticating a)
        { s with pendingAuthentications := s.pendingAuthentications.erase a.body.sessionId }
  | opening {q : Option Request} {userId : String} {allow : List AllowCredential} :
      Served p s now q .idle .quiet (.opening userId allow) s
  | backing {q : Option Request} {userId : String} :
      Served p s now q .idle .quiet (.backing userId) s
  | marked {q : Option Request} {userId credId : String} {label : Option String}
      {creds : List StoredCredential} (hlookup : s.credentials.lookup userId = some creds) :
      Served p s now q .idle .quiet .idle
        { s with
          credentials := s.credentials.replace userId
            (updateCredential creds credId (marking label)) }
  | removal {userId credId : String} {result : Except Failure Unit} {s' : WebAuthnState}
      (hremoves : Removes s userId credId (result, s')) :
      Served p s now (some (.removeCredential userId credId)) .idle
        (.removal userId credId result) .idle s'
  | checked {r : Registration}
      (habsent : ∀ c ∈ s.credentials.values, c.credentialId ≠ r.body.credentialId) :
      Served p s now none (.checking r) (.checked r.body.credentialId)
        (.storing r (r.credential p now)) s
  | registered {r : Registration} {credential : StoredCredential} :
      Served p s now none (.storing r credential)
        (.registered r.session credential.credentialId) .idle
        { s with credentials := s.credentials.push r.pending.userId credential }
  | authenticated {a : Authentication} {cred : StoredCredential} {creds : List StoredCredential}
      (hlookup : s.credentials.lookup a.pending.userId = some creds)
      (hcred : authenticCredential p s a = .ok cred)
      (hcount : ¬ (a.newSignCount ≠ 0 ∧ a.newSignCount ≤ cred.signCount)) :
      Served p s now none (.authenticating a)
        (.authenticated a.session a.body.credentialId a.newSignCount) .idle
        { s with
          credentials := s.credentials.replace a.pending.userId
            (updateCredential creds a.body.credentialId (counting a now)) }

section Served

variable {p : Platform} {s server : WebAuthnState} {now : Moment} {entropy : Entropy}
  {event : Event} {work work' : Work}

theorem begin_served (request : Request)
    (h : begin p s now entropy request = (event, work', server)) :
    Served p s now (some request) .idle event work' server := by
  cases request with
  | beginRegistration body =>
      simp only [begin, beginRegistration] at h
      by_cases huser : body.userId = ""
      · simp only [if_pos huser] at h
        cases h
        exact .refused
      · by_cases hname : body.userName = ""
        · simp only [if_neg huser, if_pos hname] at h
          cases h
          exact .refused
        · simp only [if_neg huser, if_neg hname] at h
          cases h
          exact .begunRegistration
  | completeRegistration body =>
      simp only [begin, claimRegistration] at h
      cases hlookup : s.pendingRegistrations.lookup body.sessionId with
      | none =>
          simp only [hlookup] at h
          cases h
          exact .refused
      | some pending =>
          simp only [hlookup] at h
          cases hvalid : validateRegistration p s.origin body pending now with
          | error f =>
              simp only [hvalid, Except.map] at h
              cases h
              exact .spoiledRegistration
          | ok data =>
              simp only [hvalid, Except.map] at h
              cases h
              exact .claimedRegistration hlookup (validateRegistration_ok hvalid)
  | beginAuthentication body =>
      simp only [begin] at h
      cases hallow : allowedCredentials s body with
      | error f =>
          simp only [hallow] at h
          cases h
          exact .refused
      | ok allow =>
          simp only [hallow] at h
          cases h
          exact .opening
  | completeAuthentication body =>
      simp only [begin, claimAuthentication] at h
      cases hlookup : s.pendingAuthentications.lookup body.sessionId with
      | none =>
          simp only [hlookup] at h
          cases h
          exact .refused
      | some pending =>
          simp only [hlookup] at h
          cases hvalid : validateAuthentication p s.origin body pending now with
          | error f =>
              simp only [hvalid] at h
              cases h
              exact .spoiledAuthentication
          | ok a =>
              simp only [hvalid] at h
              cases h
              obtain ⟨rfl, rfl, hclaimed, htime⟩ := validateAuthentication_ok hvalid
              exact .claimedAuthentication hlookup (hclaimed ▸ htime)
  | removeCredential userId credId =>
      cases h
      exact .removal (removeCredential_removes s userId credId)
  | addBackupAuthenticator userId credId body =>
      simp only [begin, markBackup] at h
      cases hlookup : s.credentials.lookup userId with
      | none =>
          simp only [hlookup] at h
          cases h
          exact .backing
      | some creds =>
          simp only [hlookup] at h
          split at h
          · next s' hmarked =>
            split at hmarked
            · cases hmarked
              cases h
              exact .marked hlookup
            · cases hmarked
          · cases h
            exact .backing

theorem resume_served (h : resume p s now entropy work = some (event, work', server)) :
    Served p s now none work event work' server := by
  cases work with
  | idle => cases h
  | checking r =>
      simp only [resume, checkDuplicate] at h
      by_cases hstored : (s.credentials.values.any fun c =>
          c.credentialId = r.body.credentialId) = true
      · simp only [if_pos hstored] at h
        cases h
        exact .refused
      · simp only [if_neg hstored] at h
        cases h
        refine .checked fun c hc hid => hstored ?_
        exact List.any_eq_true.mpr ⟨c, hc, decide_eq_true hid⟩
  | storing r credential =>
      cases h
      exact .registered
  | authenticating a =>
      simp only [resume, authenticate] at h
      cases hcred : authenticCredential p s a with
      | error f =>
          simp only [hcred] at h
          cases h
          exact .refused
      | ok cred =>
          by_cases hcount : a.newSignCount ≠ 0 ∧ a.newSignCount ≤ cred.signCount
          · simp only [hcred, if_pos hcount] at h
            cases h
            exact .refused
          · simp only [hcred, if_neg hcount] at h
            obtain ⟨⟨creds, hlookup⟩, -⟩ := authenticCredential_ok hcred
            rw [Buckets.bucket_of_lookup hlookup] at h
            cases h
            exact .authenticated hlookup hcred hcount
  | opening userId allow =>
      cases h
      exact .begunAuthentication
  | backing userId =>
      cases h
      exact .begunRegistration

/-- Every step is a section of its client. -/
theorem Step.served {s t : System} {k : Label} (h : Step p s k t) : ∃ work server,
    Served p s.server k.action.now k.action.request (s.clients k.action.client) k.event work
      server ∧ t = s.after k work server ∧ ∀ name ∈ k.event.names, name ∉ s.names := by
  cases h with
  | @serve work server hserve hfresh =>
      refine ⟨work, server, ?_, rfl, hfresh⟩
      unfold WebAuthn.serve at hserve
      split at hserve
      · next request hrequest hidle =>
        rw [hrequest, hidle]
        exact begin_served request (Option.some.inj hserve)
      · cases hserve
      · next hrequest =>
        rw [hrequest]
        exact resume_served hserve

end Served

/-! ## Playing a sequence of actions -/

/-- The labels and the last state of a sequence of actions, if its clients can do them and its
names are fresh. -/
def play (p : Platform) (s : System) : List Action → Option (List Label × System)
  | [] => some ([], s)
  | a :: actions => do
      let (ks, t) ← play p s actions
      let (event, work, server) ← serve p t a
      if event.names.all (· ∉ t.names) then
        some (⟨a, event⟩ :: ks, t.after ⟨a, event⟩ work server)
      else none

theorem play_run {p : Platform} {s t : System} {actions : List Action} {ks : List Label}
    (h : play p s actions = some (ks, t)) : Run (Step p) s ks t := by
  induction actions generalizing ks t with
  | nil =>
      cases h
      exact .start
  | cons a actions ih =>
      unfold play at h
      obtain ⟨⟨ks', t'⟩, hplay, h⟩ := Option.bind_eq_some_iff.mp h
      obtain ⟨⟨event, work, server⟩, hserve, h⟩ := Option.bind_eq_some_iff.mp h
      dsimp only at h
      split at h
      · next hfresh =>
        cases h
        refine .next (ih hplay) (.serve hserve fun name hname => ?_)
        exact of_decide_eq_true (List.all_eq_true.mp hfresh name hname)
      · cases h

/-! ## A sample of what the packages do

An Ed25519 key, its attestation, and two assertions made with it, each with the encodings,
digests and signatures that the packages compute for them.
-/

namespace Sample

def filled (n : UInt8) : Bytes := List.replicate 32 n

def key : Bytes :=
  [59, 106, 39, 188, 206, 182, 164, 45, 98, 163, 168, 208, 42, 111, 13, 115, 101, 50, 21, 119, 29,
   226, 67, 166, 58, 192, 72, 161, 139, 89, 218, 41]

def coseKey : Bytes := [0xa4, 0x01, 0x01, 0x03, 0x27, 0x20, 0x06, 0x21, 0x58, 0x20] ++ key

def credentialId : Bytes := List.replicate 16 7

/-- Authenticator data of a registration: the flags `UP | AT`, no use yet, no model. -/
def attestedData : Bytes :=
  List.replicate 32 0 ++ [0x41, 0, 0, 0, 0] ++ List.replicate 16 0 ++ [0, 16] ++ credentialId ++
    coseKey

/-- Authenticator data of an assertion with the flag `UP`. -/
def assertedData (signCount : UInt8) : Bytes := List.replicate 32 0 ++ [1, 0, 0, 0, signCount]

def attestation : Bytes :=
  [163, 99, 102, 109, 116, 100, 110, 111, 110, 101, 103, 97, 116, 116, 83, 116, 109, 116, 160,
   104, 97, 117, 116, 104, 68, 97, 116, 97, 88, 113] ++ attestedData

def ascii (text : String) : Bytes := text.toUTF8.data.toList

def created₁ : Bytes := ascii
  ("\x7b\"type\":\"webauthn.create\",\"challenge\":\"AQEBAQEBAQEBAQEBAQEBAQEBAQEBAQEBAQEBAQEBAQE\"," ++
   "\"origin\":\"http://localhost:3000\"\x7d")

def created₂ : Bytes := ascii
  ("\x7b\"type\":\"webauthn.create\",\"challenge\":\"AgICAgICAgICAgICAgICAgICAgICAgICAgICAgICAgI\"," ++
   "\"origin\":\"http://localhost:3000\"\x7d")

def got₂ : Bytes := ascii
  ("\x7b\"type\":\"webauthn.get\",\"challenge\":\"AgICAgICAgICAgICAgICAgICAgICAgICAgICAgICAgI\"," ++
   "\"origin\":\"http://localhost:3000\"\x7d")

def got₃ : Bytes := ascii
  ("\x7b\"type\":\"webauthn.get\",\"challenge\":\"AwMDAwMDAwMDAwMDAwMDAwMDAwMDAwMDAwMDAwMDAwM\"," ++
   "\"origin\":\"http://localhost:3000\"\x7d")

def signature₂ : Bytes :=
  [203, 117, 148, 38, 149, 28, 32, 195, 95, 201, 252, 87, 249, 251, 104, 119, 77, 209, 18, 230,
   61, 161, 211, 81, 147, 61, 42, 139, 198, 125, 148, 240, 69, 196, 208, 132, 35, 74, 176, 145, 0,
   198, 228, 208, 124, 45, 51, 1, 248, 105, 7, 85, 72, 228, 249, 125, 70, 50, 125, 8, 120, 141,
   196, 14]

def signature₃ : Bytes :=
  [194, 59, 212, 102, 174, 43, 200, 157, 252, 29, 190, 60, 101, 172, 118, 107, 168, 143, 27, 64,
   218, 112, 248, 54, 62, 25, 49, 91, 84, 232, 106, 90, 73, 177, 182, 11, 63, 37, 65, 195, 82,
   179, 112, 226, 140, 186, 181, 3, 9, 110, 233, 206, 169, 11, 192, 44, 64, 106, 30, 25, 105, 137,
   56, 10]

def digest₂ : Bytes :=
  [117, 105, 95, 170, 243, 216, 56, 205, 152, 138, 141, 76, 72, 17, 235, 30, 177, 105, 22, 106, 6,
   79, 187, 73, 69, 247, 112, 176, 255, 194, 8, 226]

def digest₃ : Bytes :=
  [24, 228, 36, 65, 200, 84, 32, 137, 88, 230, 45, 240, 82, 120, 12, 49, 242, 229, 81, 211, 126,
   141, 30, 160, 17, 132, 161, 209, 79, 202, 210, 222]

def encodings : List (Bytes × String) :=
  [(filled 1,
    "AQEBAQEBAQEBAQEBAQEBAQEBAQEBAQEBAQEBAQEBAQE"),
   (filled 2,
    "AgICAgICAgICAgICAgICAgICAgICAgICAgICAgICAgI"),
   (filled 3,
    "AwMDAwMDAwMDAwMDAwMDAwMDAwMDAwMDAwMDAwMDAwM"),
   (filled 11,
    "CwsLCwsLCwsLCwsLCwsLCwsLCwsLCwsLCwsLCwsLCws"),
   (filled 12,
    "DAwMDAwMDAwMDAwMDAwMDAwMDAwMDAwMDAwMDAwMDAw"),
   (filled 13,
    "DQ0NDQ0NDQ0NDQ0NDQ0NDQ0NDQ0NDQ0NDQ0NDQ0NDQ0"),
   (ascii "alice",
    "YWxpY2U"),
   (ascii "mallory",
    "bWFsbG9yeQ"),
   (credentialId,
    "BwcHBwcHBwcHBwcHBwcHBw"),
   (coseKey,
    "pAEBAycgBiFYIDtqJ7zOtqQtYqOo0CpvDXNlMhV3HeJDpjrASKGLWdop"),
   (attestation,
    "o2NmbXRkbm9uZWdhdHRTdG10oGhhdXRoRGF0YVhxAAAAAAAAAAAAAAAAAAAAAAAAAAAAAAAAAAAAAAAAAABBAAAAAAA" ++
    "AAAAAAAAAAAAAAAAAAAAAEAcHBwcHBwcHBwcHBwcHBwekAQEDJyAGIVggO2onvM62pC1io6jQKm8Nc2UyFXcd4kOmOs" ++
    "BIoYtZ2ik"),
   (created₁,
    "eyJ0eXBlIjoid2ViYXV0aG4uY3JlYXRlIiwiY2hhbGxlbmdlIjoiQVFFQkFRRUJBUUVCQVFFQkFRRUJBUUVCQVFFQkF" ++
    "RRUJBUUVCQVFFQkFRRSIsIm9yaWdpbiI6Imh0dHA6Ly9sb2NhbGhvc3Q6MzAwMCJ9"),
   (created₂,
    "eyJ0eXBlIjoid2ViYXV0aG4uY3JlYXRlIiwiY2hhbGxlbmdlIjoiQWdJQ0FnSUNBZ0lDQWdJQ0FnSUNBZ0lDQWdJQ0F" ++
    "nSUNBZ0lDQWdJQ0FnSSIsIm9yaWdpbiI6Imh0dHA6Ly9sb2NhbGhvc3Q6MzAwMCJ9"),
   (got₂,
    "eyJ0eXBlIjoid2ViYXV0aG4uZ2V0IiwiY2hhbGxlbmdlIjoiQWdJQ0FnSUNBZ0lDQWdJQ0FnSUNBZ0lDQWdJQ0FnSUN" ++
    "BZ0lDQWdJQ0FnSSIsIm9yaWdpbiI6Imh0dHA6Ly9sb2NhbGhvc3Q6MzAwMCJ9"),
   (got₃,
    "eyJ0eXBlIjoid2ViYXV0aG4uZ2V0IiwiY2hhbGxlbmdlIjoiQXdNREF3TURBd01EQXdNREF3TURBd01EQXdNREF3TUR" ++
    "Bd01EQXdNREF3TSIsIm9yaWdpbiI6Imh0dHA6Ly9sb2NhbGhvc3Q6MzAwMCJ9"),
   (assertedData 5,
    "AAAAAAAAAAAAAAAAAAAAAAAAAAAAAAAAAAAAAAAAAAABAAAABQ"),
   (assertedData 0,
    "AAAAAAAAAAAAAAAAAAAAAAAAAAAAAAAAAAAAAAAAAAABAAAAAA"),
   (signature₂,
    "y3WUJpUcIMNfyfxX-ftod03REuY9odNRkz0qi8Z9lPBFxNCEI0qwkQDG5NB8LTMB-GkHVUjk-X1GMn0IeI3EDg"),
   (signature₃,
    "wjvUZq4ryJ38Hb48Zax2a6iPG0DacPg2PhkxW1ToalpJsbYLPyVBw1KzcOKMurUDCW7pzqkLwCxAah4ZaYk4Cg")]

/-- The string members of client data. -/
def members (kind challenge : String) (name : String) : Option String :=
  if name = "type" then some kind
  else if name = "challenge" then some challenge
  else if name = "origin" then some "http://localhost:3000"
  else none

def documents : List (Bytes × (String → Option String)) :=
  [(created₁, members "webauthn.create" "AQEBAQEBAQEBAQEBAQEBAQEBAQEBAQEBAQEBAQEBAQE"),
   (created₂, members "webauthn.create" "AgICAgICAgICAgICAgICAgICAgICAgICAgICAgICAgI"),
   (got₂, members "webauthn.get" "AgICAgICAgICAgICAgICAgICAgICAgICAgICAgICAgI"),
   (got₃, members "webauthn.get" "AwMDAwMDAwMDAwMDAwMDAwMDAwMDAwMDAwMDAwMDAwM")]

def values : List (Bytes × CborValue) :=
  [(attestation,
    .map [(.text "fmt", .text "none"), (.text "attStmt", .map []),
      (.text "authData", .bytes attestedData)]),
   (coseKey,
    .map [(.integer 1, .integer 1), (.integer 3, .integer (-8)), (.integer (-1), .integer 6),
      (.integer (-2), .bytes key)])]

def find {α : Type} (table : List (Bytes × α)) (bytes : Bytes) : Option α :=
  (table.find? fun e => e.1 = bytes).map fun e => e.2

def platform : Platform where
  b64urlEncode bytes := (find encodings bytes).getD ""
  b64urlDecode text := (encodings.find? fun e => e.2 = text).map fun e => e.1
  jsonFromSlice := find documents
  cborFromReader bytes :=
    match find values bytes with
    | some value => .ok (value, bytes.length)
    | none => .error "unexpected end of input"
  sha256 bytes := (find [(got₂, digest₂), (got₃, digest₃)] bytes).getD []
  p256FromSec1 _ := .error "signature error"
  ed25519FromBytes bytes := if bytes = key then .ok () else .error "signature error"
  es256Verifies _ _ _ := false
  rs256Verifies _ _ _ _ := false
  edDsaVerifies k message signature := k = key ∧
    (message = assertedData 5 ++ digest₂ ∧ signature = signature₂ ∨
      message = assertedData 0 ++ digest₃ ∧ signature = signature₃)

def server : System := .new "localhost" "Test RP" "http://localhost:3000"

/-- A client begins to register a user. -/
def begins (client : Nat) (user : String) (challenge token : UInt8) : Action where
  client := client
  request := some (.beginRegistration ⟨user, user, none, false⟩)
  now := ⟨1000, 0⟩
  entropy := ⟨filled challenge, filled token⟩

/-- It completes the registration with the credential of the sample. -/
def completes (client : Nat) (token : UInt8) (clientData : Bytes) : Action where
  client := client
  request := some (.completeRegistration
    { sessionId := platform.b64urlEncode (filled token)
      credentialId := platform.b64urlEncode credentialId
      clientDataJson := platform.b64urlEncode clientData
      attestationObject := platform.b64urlEncode attestation
      label := none
      isBackup := false })
  now := ⟨1001, 0⟩
  entropy := ⟨[], []⟩

/-- A client goes on with its request; `token` is for a session that it may begin. -/
def goesOn (client : Nat) (challenge token : UInt8) : Action where
  client := client
  request := none
  now := ⟨1002, 0⟩
  entropy := ⟨filled challenge, filled token⟩

/-- Alice registers, all sections in a row. The newest action comes first. -/
def registration : List Action :=
  [goesOn 1 0 0, goesOn 1 0 0, completes 1 11 created₁, begins 1 "alice" 1 11]

end Sample

end Heirloom.Backend.WebAuthn
