import Mathlib.Algebra.Group.Nat.Defs
import Mathlib.Data.List.Nodup
import Mathlib.Logic.Function.Basic
import Heirloom.Lib.Runs

/-!
# Two-factor authentication

A vault has a configuration in the database, the codes that were sent and not yet used, and a
flag for its session. Codes are kept by vault. An enrolment replaces the configuration and
leaves the codes of earlier ones.

Results:
1. `two_factor_iff`: over every sequence of calls, a code is accepted once, in time and under
   its own configuration, and an enabled vault stays enabled until it is disabled, exactly if
   no enrolment replaces an enabled configuration and no code is entered that is pending for
   another configuration than the stored one. That a code is accepted once and in time needs
   no condition (`codesKept_of_run`).
2. `code_of_replaced_enrolment`: a code sent by SMS that confirms an email address.
-/

namespace Heirloom.Backend.TwoFactor

open Runs

/-! ## Strings -/

/-- `char::is_whitespace` -/
def isWhitespace (c : Char) : Bool :=
  (9 ≤ c.toNat && c.toNat ≤ 13) || (0x2000 ≤ c.toNat && c.toNat ≤ 0x200A) ||
    [0x20, 0x85, 0xA0, 0x1680, 0x2028, 0x2029, 0x202F, 0x205F, 0x3000].contains c.toNat

/-- `trim().is_empty()` -/
def isBlank (s : String) : Bool := s.toList.all isWhitespace

/-- `to_uppercase`, up to letters that are not in the alphabet before and after. -/
def toUppercase : Char → List Char
  | 'ß' => ['S', 'S']
  | 'ı' => ['I']
  | 'ſ' => ['S']
  | 'ﬀ' => ['F', 'F']
  | 'ﬁ' => ['F', 'I']
  | 'ﬂ' => ['F', 'L']
  | 'ﬃ' => ['F', 'F', 'I']
  | 'ﬄ' => ['F', 'F', 'L']
  | 'ﬅ' | 'ﬆ' => ['S', 'T']
  | c => [c.toUpper]

def alphabet : List Char := "ABCDEFGHIJKLMNOPQRSTUVWXYZ234567".toList

/-- The letter of the last five bits. -/
def base32Letter (buffer : UInt64) : Char := alphabet.getD (buffer &&& 0x1F).toNat 'A'

/-- The inner loop: as many letters as there are five bits for, and the bits left. -/
def base32Letters (buffer : UInt64) : Nat → List Char × Nat
  | bits + 5 =>
      let (letters, left) := base32Letters buffer bits
      (base32Letter (buffer >>> UInt64.ofNat bits) :: letters, left)
  | bits => ([], bits)

def base32Loop (buffer : UInt64) (bits : Nat) : List UInt8 → List Char
  | [] => if 0 < bits then [base32Letter (buffer <<< UInt64.ofNat (5 - bits))] else []
  | byte :: input =>
      let buffer := (buffer <<< 8) ||| byte.toUInt64
      let (letters, left) := base32Letters buffer (bits + 8)
      letters ++ base32Loop buffer left input

def base32Encode (input : List UInt8) : String := String.ofList (base32Loop 0 0 input)

def base32DecodeLoop (buffer : UInt64) (bits : Nat) : List Char → Option (List UInt8)
  | [] => some []
  | c :: input =>
      match alphabet.findIdx? (· == c) with
      | none => none
      | some val =>
          let buffer := (buffer <<< 5) ||| UInt64.ofNat val
          if 8 ≤ bits + 5 then
            let bits := bits + 5 - 8
            (base32DecodeLoop (buffer &&& ((1 <<< UInt64.ofNat bits) - 1)) bits input).map
              ((buffer >>> UInt64.ofNat bits).toUInt8 :: ·)
          else base32DecodeLoop buffer (bits + 5) input

def base32Decode (input : String) : Option (List UInt8) :=
  base32DecodeLoop 0 0 ((input.toList.filter fun c => !isWhitespace c).flatMap toUppercase)

/-- `{:06}` -/
def sixDigits (n : Nat) : String := String.ofList ((Nat.toDigits 10 n).leftpad 6 '0')

/-! ## Passcodes -/

/-- HMAC-SHA1 of the `hmac` crate, of a key of any length and a message. -/
abbrev HmacSha1 := List UInt8 → List UInt8 → Vector UInt8 20

/-- Times are in nanoseconds. -/
def asSecs (now : Nat) : Nat := now / 10 ^ 9

def u64Max : UInt64 := UInt64.ofNat (2 ^ 64 - 1)

/-- The counter of a window; the one before the first does not exist. -/
def totpCounter (timeStep offset : UInt64) : Option UInt64 :=
  if offset = u64Max then
    if timeStep = 0 then none else some (timeStep - 1)
  else some (timeStep + offset)

def toBeBytes (n : UInt64) : List UInt8 :=
  ([56, 48, 40, 32, 24, 16, 8, 0] : List UInt64).map fun shift => (n >>> shift).toUInt8

theorem lowNibble_lt (b : UInt8) : (b &&& 0x0F).toNat < 16 := by
  have hle : b.toNat &&& 15 ≤ 15 := Nat.and_le_right
  show b.toNat &&& 15 < 16
  omega

/-- The number in a hash that the last four bits point at. -/
def truncateHash (hash : Vector UInt8 20) : UInt32 :=
  let offset := (hash[19] &&& 0x0F).toNat
  have hoffset : offset < 16 := lowNibble_lt hash[19]
  ((hash[offset] &&& 0x7F).toUInt32 <<< 24) ||| (hash[offset + 1].toUInt32 <<< 16) |||
    (hash[offset + 2].toUInt32 <<< 8) ||| hash[offset + 3].toUInt32

def verifyTotpCode (mac : HmacSha1) (now : Nat) (secret code : String) : Bool :=
  match base32Decode secret with
  | none => false
  | some secretBytes =>
      ([0, 1, u64Max].filterMap (totpCounter (UInt64.ofNat (asSecs now / 30)))).any fun counter =>
        sixDigits ((truncateHash (mac secretBytes (toBeBytes counter))).toNat % 1000000) == code

/-- The random numbers of a call. -/
structure Rng where
  otp : Fin 1000000
  secret : Vector UInt8 20

def generateOtpCode (rng : Rng) : String := sixDigits rng.otp

def generateTotpSecret (rng : Rng) : String := base32Encode rng.secret.toList

def generateProvisioningUri (secret label : String) : String :=
  let encodedLabel := String.ofList (label.toList.map fun c => if c = ':' ∨ c = ' ' then '_' else c)
  "otpauth://totp/" ++ encodedLabel ++ "?secret=" ++ secret ++
    "&issuer=Heirloom-Protocol&algorithm=SHA1&digits=6&period=30"

/-! ## The stores -/

inductive TwoFactorMethod
  | totp
  | sms
  | email
deriving DecidableEq

structure TwoFactorConfig where
  vaultId : String
  method : TwoFactorMethod
  enabled : Bool
  secret : Option String
  phone : Option String
  email : Option String
  createdAt : Nat
  verifiedAt : Option Nat

/-- The call that issued a code, with a number of its own. -/
structure Issue where
  serial : Nat
  vaultId : String
  method : TwoFactorMethod
  phone : Option String
  email : Option String
  issuedAt : Nat

/-- Who issued the code is kept for the statements below only. -/
structure PendingOtp where
  code : String
  expiresAt : Nat
  issue : Issue

/-- The table of configurations, the two maps in memory, and how many codes have been issued. -/
structure Stores where
  configs : String → Option TwoFactorConfig
  pendingOtps : String → List PendingOtp
  sessionVerified : String → Option Bool
  issued : Nat

def Stores.empty : Stores := ⟨fun _ => none, fun _ => [], fun _ => none, 0⟩

inductive AppError
  | db
  | notFound
  | invalidInput (message : String)
deriving DecidableEq

inductive StatusCode
  | ok
  | noContent

/-- The statements that a call sends to the database. -/
inductive Statement
  | select
  | upsert
  | delete

namespace Stores

/-- `None` if the database fails. -/
def get2faConfig (s : Stores) (fails : Statement → Bool) (vaultId : String) :
    Option (Option TwoFactorConfig) :=
  if fails .select then none else some (s.configs vaultId)

def upsert2faConfig (s : Stores) (fails : Statement → Bool) (config : TwoFactorConfig) :
    Option Stores :=
  if fails .upsert then none
  else some { s with configs := Function.update s.configs config.vaultId (some config) }

def delete2faConfig (s : Stores) (fails : Statement → Bool) (vaultId : String) : Option Stores :=
  if fails .delete then none
  else some { s with configs := Function.update s.configs vaultId none }

/-- A code that is good for 300 seconds. -/
def pushOtp (s : Stores) (now : Nat) (config : TwoFactorConfig) (code : String) : Stores :=
  let otp : PendingOtp := ⟨code, asSecs now + 300,
    ⟨s.issued, config.vaultId, config.method, config.phone, config.email, now⟩⟩
  { s with
    pendingOtps := Function.update s.pendingOtps config.vaultId
      (s.pendingOtps config.vaultId ++ [otp])
    issued := s.issued + 1 }

/-- The codes of a vault that have not expired. -/
def liveOtps (s : Stores) (now : Nat) (vaultId : String) : List PendingOtp :=
  (s.pendingOtps vaultId).filter fun otp => decide (asSecs now < otp.expiresAt)

/-- The pending code that an entered one is compared with successfully first. -/
def matchedOtp (s : Stores) (now : Nat) (vaultId code : String) : Option PendingOtp :=
  (s.liveOtps now vaultId).find? (·.code == code)

/-- Expired codes are dropped, and the one that matches is used up. -/
def verifyPendingOtp (s : Stores) (now : Nat) (vaultId code : String) : Bool × Stores :=
  ((s.matchedOtp now vaultId code).isSome,
    { s with
      pendingOtps := Function.update s.pendingOtps vaultId
        ((s.liveOtps now vaultId).eraseP (·.code == code)) })

end Stores

/-! ## The handlers -/

structure TwoFactorStatusResponse where
  vaultId : String
  enabled : Bool
  method : Option TwoFactorMethod
  verified : Bool
  phone : Option String
  email : Option String

structure Enable2FARequest where
  method : TwoFactorMethod
  phone : Option String
  email : Option String

structure Enable2FAResponse where
  vaultId : String
  method : TwoFactorMethod
  secret : Option String
  provisioningUri : Option String

/-- What is wrong with a request. -/
def Enable2FARequest.refusal (body : Enable2FARequest) : Option AppError :=
  match body.method with
  | .sms =>
      if body.phone.all isBlank then some (.invalidInput "phone is required for SMS 2FA") else none
  | .email =>
      if body.email.all isBlank then some (.invalidInput "email is required for Email 2FA")
      else none
  | .totp => none

namespace Stores

def verifiedSession (s : Stores) (vaultId : String) : Bool :=
  (s.sessionVerified vaultId).getD false

/-- The answer of `get_2fa_status` from what the database returns. -/
def status (s : Stores) (vaultId : String) : TwoFactorStatusResponse :=
  match s.configs vaultId with
  | some cfg => ⟨cfg.vaultId, cfg.enabled, some cfg.method, s.verifiedSession vaultId, cfg.phone,
      cfg.email⟩
  | none => ⟨vaultId, false, none, false, none, none⟩

def get2faStatus (s : Stores) (fails : Statement → Bool) (vaultId : String) :
    Except AppError TwoFactorStatusResponse :=
  match s.get2faConfig fails vaultId with
  | none => .error .db
  | some _ => .ok (s.status vaultId)

/-- Sends a code for a configuration and stores it, not yet enabled. -/
def enrolWithOtp (s : Stores) (now : Nat) (fails : Statement → Bool) (config : TwoFactorConfig)
    (code : String) : Except AppError Enable2FAResponse × Stores :=
  let s := s.pushOtp now config code
  match s.upsert2faConfig fails config with
  | none => (.error .db, s)
  | some s => (.ok ⟨config.vaultId, config.method, none, none⟩, s)

def enable2fa (s : Stores) (now : Nat) (rng : Rng) (fails : Statement → Bool) (vaultId : String)
    (body : Enable2FARequest) : Except AppError Enable2FAResponse × Stores :=
  match body.refusal with
  | some err => (.error err, s)
  | none =>
      match body.method with
      | .totp =>
          let secret := generateTotpSecret rng
          let provisioningUri := generateProvisioningUri secret vaultId
          match s.upsert2faConfig fails
              ⟨vaultId, .totp, false, some secret, none, none, now, none⟩ with
          | none => (.error .db, s)
          | some s => (.ok ⟨vaultId, .totp, some secret, some provisioningUri⟩, s)
      | .sms =>
          s.enrolWithOtp now fails
            ⟨vaultId, .sms, false, none, some (body.phone.getD ""), none, now, none⟩
            (generateOtpCode rng)
      | .email =>
          s.enrolWithOtp now fails
            ⟨vaultId, .email, false, none, none, some (body.email.getD ""), now, none⟩
            (generateOtpCode rng)

/-- Whether the code entered is right for the configuration. -/
def checkOtp (mac : HmacSha1) (s : Stores) (now : Nat) (vaultId : String)
    (config : TwoFactorConfig) (otp : String) : Except AppError Bool × Stores :=
  match config.method with
  | .totp =>
      match config.secret with
      | none => (.error (.invalidInput "TOTP secret not found"), s)
      | some secret => (.ok (verifyTotpCode mac now secret otp), s)
  | .sms | .email =>
      let (valid, s) := s.verifyPendingOtp now vaultId otp
      (.ok valid, s)

def verify2fa (mac : HmacSha1) (s : Stores) (now : Nat) (fails : Statement → Bool)
    (vaultId otp : String) : Except AppError StatusCode × Stores :=
  match s.get2faConfig fails vaultId with
  | none => (.error .db, s)
  | some none => (.error .notFound, s)
  | some (some config) =>
      match s.checkOtp mac now vaultId config otp with
      | (.error err, s) => (.error err, s)
      | (.ok false, s) => (.error (.invalidInput "Invalid or expired OTP"), s)
      | (.ok true, s) =>
          match s.upsert2faConfig fails { config with enabled := true, verifiedAt := some now } with
          | none => (.error .db, s)
          | some s =>
              (.ok .ok,
                { s with sessionVerified := Function.update s.sessionVerified vaultId (some true) })

def disable2fa (s : Stores) (fails : Statement → Bool) (vaultId : String) :
    Except AppError StatusCode × Stores :=
  match s.delete2faConfig fails vaultId with
  | none => (.error .db, s)
  | some s =>
      (.ok .noContent,
        { s with
          sessionVerified := Function.update s.sessionVerified vaultId none
          pendingOtps := Function.update s.pendingOtps vaultId [] })

def clear2faSession (s : Stores) (vaultId : String) : StatusCode × Stores :=
  (.ok, { s with sessionVerified := Function.update s.sessionVerified vaultId none })

end Stores

/-! ## Sequences of calls -/

inductive Call
  | enable (vaultId : String) (body : Enable2FARequest) (rng : Rng)
  | verify (vaultId otp : String)
  | disable (vaultId : String)
  | clearSession (vaultId : String)

/-- A call, when it comes, and the statements that the database fails. -/
structure Label where
  call : Call
  now : Nat
  fails : Statement → Bool

/-- A code that made a verification succeed, with the configuration stored then. -/
structure Acceptance where
  issue : Issue
  time : Nat
  config : TwoFactorConfig

/-- The stores, the clock, and the codes accepted so far, the newest first. -/
structure World where
  stores : Stores
  clock : Nat
  accepted : List Acceptance

def World.start : World := ⟨.empty, 0, []⟩

/-- The stores after a call. -/
def Stores.after (mac : HmacSha1) (s : Stores) (k : Label) : Stores :=
  match k.call with
  | .enable vaultId body rng => (s.enable2fa k.now rng k.fails vaultId body).2
  | .verify vaultId otp => (s.verify2fa mac k.now k.fails vaultId otp).2
  | .disable vaultId => (s.disable2fa k.fails vaultId).2
  | .clearSession vaultId => (s.clear2faSession vaultId).2

/-- The code that makes a verification succeed. -/
def Stores.acceptance (mac : HmacSha1) (s : Stores) (k : Label) : Option Acceptance :=
  match k.call with
  | .verify vaultId otp =>
      match (s.verify2fa mac k.now k.fails vaultId otp).1, s.configs vaultId,
          s.matchedOtp k.now vaultId otp with
      | .ok _, some config, some pending =>
          if config.method = .totp then none else some ⟨pending.issue, k.now, config⟩
      | _, _, _ => none
  | _ => none

def World.next (mac : HmacSha1) (w : World) (k : Label) : World :=
  ⟨w.stores.after mac k, k.now, (w.stores.acceptance mac k).toList ++ w.accepted⟩

/-- One call after the other, at times that do not decrease. -/
def Step (mac : HmacSha1) (w : World) (k : Label) (w' : World) : Prop :=
  w.clock ≤ k.now ∧ w' = w.next mac k

/-! ## What is claimed of a run -/

def otpLifetime : Nat := 300 * 10 ^ 9

/-- The configuration is the one that the code was issued for. -/
def Issue.IsFor (issue : Issue) (config : TwoFactorConfig) : Prop :=
  config.vaultId = issue.vaultId ∧ config.method = issue.method ∧ config.phone = issue.phone ∧
    config.email = issue.email

instance (issue : Issue) (config : TwoFactorConfig) : Decidable (issue.IsFor config) :=
  inferInstanceAs (Decidable (_ ∧ _))

/-- No code has been accepted twice, or later than 300 seconds after it was issued. -/
structure CodesKept (accepted : List Acceptance) : Prop where
  once : (accepted.map (·.issue.serial)).Nodup
  inTime : ∀ a ∈ accepted, a.issue.issuedAt ≤ a.time ∧ a.time < a.issue.issuedAt + otpLifetime

def Enabled (w : World) (vaultId : String) : Prop := (w.stores.status vaultId).enabled = true

/-- Codes are accepted once, in time and for the configuration they were issued for, and from
any state of the run on, a vault that is enabled stays so until it is disabled. -/
structure Kept (mac : HmacSha1) (ks : List Label) (w : World) : Prop where
  codes : CodesKept w.accepted
  own : ∀ a ∈ w.accepted, a.issue.IsFor a.config
  enabled : ∀ ks₁ ks₂ w₁ w₂ vaultId, ks₂ ++ ks₁ <:+ ks → Run (Step mac) .start ks₁ w₁ →
    Run (Step mac) w₁ ks₂ w₂ → Enabled w₁ vaultId → (∀ k ∈ ks₂, k.call ≠ .disable vaultId) →
      Enabled w₂ vaultId

/-- The call is no enrolment for an enabled vault that reaches the database, and no
verification with a code that is pending for another configuration than the stored one. -/
def Undisturbed (w : World) (k : Label) : Prop :=
  match k.call with
  | .enable vaultId body _ => body.refusal = none → k.fails .upsert = false →
      (w.stores.status vaultId).enabled = false
  | .verify vaultId otp => k.fails .select = false → k.fails .upsert = false →
      ∀ config pending, w.stores.configs vaultId = some config → config.method ≠ .totp →
        w.stores.matchedOtp k.now vaultId otp = some pending → pending.issue.IsFor config
  | _ => True

/-! ## What a call does -/

section Calls

variable {mac : HmacSha1} {s s' : Stores} {k : Label} {now : Nat} {fails : Statement → Bool}
  {vaultId v otp code : String} {config : TwoFactorConfig} {body : Enable2FARequest} {rng : Rng}

theorem upsert2faConfig_eq_some (h : s.upsert2faConfig fails config = some s') :
    fails .upsert = false ∧
      s' = { s with configs := Function.update s.configs config.vaultId (some config) } := by
  unfold Stores.upsert2faConfig at h
  split at h
  · cases h
  · next hfails => exact ⟨by simpa using hfails, (Option.some.inj h).symm⟩

theorem enrolWithOtp_configs :
    (s.enrolWithOtp now fails config code).2.configs =
      if fails .upsert then s.configs
      else Function.update s.configs config.vaultId (some config) := by
  unfold Stores.enrolWithOtp
  dsimp only
  split
  · next hupsert =>
      unfold Stores.upsert2faConfig at hupsert
      split at hupsert
      · next hfails => rw [if_pos hfails]; rfl
      · cases hupsert
  · next s' hupsert =>
      obtain ⟨hfails, rfl⟩ := upsert2faConfig_eq_some hupsert
      rw [hfails]
      rfl

/-- An enrolment that reaches the database replaces the configuration by one that is not
enabled. -/
theorem enable2fa_configs (s : Stores) (now : Nat) (rng : Rng) (vaultId : String)
    (hvalid : body.refusal = none) (hfails : fails .upsert = false) :
    ∃ config, config.vaultId = vaultId ∧ config.enabled = false ∧
      (s.enable2fa now rng fails vaultId body).2.configs =
        Function.update s.configs vaultId (some config) := by
  unfold Stores.enable2fa
  rw [hvalid]
  dsimp only
  split
  · refine ⟨⟨vaultId, .totp, false, some (generateTotpSecret rng), none, none, now, none⟩, rfl, rfl,
      ?_⟩
    simp [Stores.upsert2faConfig, hfails]
  · refine ⟨_, ?_, ?_, enrolWithOtp_configs.trans (if_neg (by simp [hfails]))⟩ <;> rfl
  · refine ⟨_, ?_, ?_, enrolWithOtp_configs.trans (if_neg (by simp [hfails]))⟩ <;> rfl

/-- Any other one leaves the configurations alone. -/
theorem enable2fa_configs_eq (h : body.refusal ≠ none ∨ fails .upsert = true) :
    (s.enable2fa now rng fails vaultId body).2.configs = s.configs := by
  unfold Stores.enable2fa
  split
  · rfl
  · next hvalid =>
      have hfails : fails .upsert = true := h.resolve_left (not_not.mpr hvalid)
      split
      · simp [Stores.upsert2faConfig, hfails]
      · exact enrolWithOtp_configs.trans (if_pos hfails)
      · exact enrolWithOtp_configs.trans (if_pos hfails)

theorem checkOtp_configs (mac : HmacSha1) (s : Stores) (now : Nat) (vaultId : String)
    (config : TwoFactorConfig) (otp : String) :
    (s.checkOtp mac now vaultId config otp).2.configs = s.configs := by
  unfold Stores.checkOtp
  split
  · split <;> rfl
  · rfl
  · rfl

/-- A verification enables the configuration that is stored, or leaves it alone. -/
theorem verify2fa_configs :
    (s.verify2fa mac now fails vaultId otp).2.configs = s.configs ∨
      ∃ config, s.configs vaultId = some config ∧
        (s.verify2fa mac now fails vaultId otp).2.configs =
          Function.update s.configs config.vaultId
            (some { config with enabled := true, verifiedAt := some now }) := by
  unfold Stores.verify2fa
  split
  · exact .inl rfl
  · exact .inl rfl
  · next config hselect =>
      have hchecked := checkOtp_configs mac s now vaultId config otp
      split
      · next hcheck => exact .inl ((congrArg (·.2.configs) hcheck).symm.trans hchecked)
      · next hcheck => exact .inl ((congrArg (·.2.configs) hcheck).symm.trans hchecked)
      · next s₁ hcheck =>
          replace hchecked : s₁.configs = s.configs :=
            (congrArg (·.2.configs) hcheck).symm.trans hchecked
          split
          · exact .inl hchecked
          · next s₂ hupsert =>
              obtain ⟨-, rfl⟩ := upsert2faConfig_eq_some hupsert
              refine .inr ⟨config, ?_, ?_⟩
              · unfold Stores.get2faConfig at hselect
                split at hselect
                · cases hselect
                · exact Option.some.inj hselect
              · dsimp only
                rw [hchecked]

theorem disable2fa_configs :
    (s.disable2fa fails vaultId).2.configs = s.configs ∨
      (s.disable2fa fails vaultId).2.configs = Function.update s.configs vaultId none := by
  unfold Stores.disable2fa Stores.delete2faConfig
  split
  · exact .inl rfl
  · next hdelete =>
      split at hdelete
      · cases hdelete
      · obtain rfl := Option.some.inj hdelete
        exact .inr rfl

/-- A verification by SMS or email. -/
theorem verify2fa_otp (hconfig : s.configs vaultId = some config)
    (hmethod : config.method ≠ .totp) :
    s.verify2fa mac now fails vaultId otp =
      if fails .select then (.error .db, s)
      else
        let s₁ := (s.verifyPendingOtp now vaultId otp).2
        if (s.matchedOtp now vaultId otp).isSome then
          if fails .upsert then (.error .db, s₁)
          else
            (.ok .ok, { s₁ with
              configs := Function.update s.configs config.vaultId
                (some { config with enabled := true, verifiedAt := some now })
              sessionVerified := Function.update s.sessionVerified vaultId (some true) })
        else (.error (.invalidInput "Invalid or expired OTP"), s₁) := by
  have hcheck : s.checkOtp mac now vaultId config otp =
      (.ok (s.matchedOtp now vaultId otp).isSome, (s.verifyPendingOtp now vaultId otp).2) := by
    unfold Stores.checkOtp
    cases hm : config.method with
    | totp => exact absurd hm hmethod
    | _ => rfl
  unfold Stores.verify2fa Stores.get2faConfig
  rw [hconfig]
  by_cases hselect : fails .select = true
  · simp [hselect]
  · rw [if_neg hselect, if_neg hselect]
    dsimp only
    rw [hcheck]
    cases hmatched : (s.matchedOtp now vaultId otp).isSome with
    | false => rfl
    | true =>
        unfold Stores.upsert2faConfig
        by_cases hupsert : fails .upsert = true
        · simp [hupsert]
        · simp [hupsert, Stores.verifyPendingOtp]

/-- A verification that succeeds with a pending code. -/
theorem acceptance_eq_some_iff {a : Acceptance} : s.acceptance mac k = some a ↔
    ∃ vaultId otp config pending, k.call = .verify vaultId otp ∧ k.fails .select = false ∧
      k.fails .upsert = false ∧ s.configs vaultId = some config ∧ config.method ≠ .totp ∧
      s.matchedOtp k.now vaultId otp = some pending ∧ a = ⟨pending.issue, k.now, config⟩ := by
  constructor
  · intro h
    unfold Stores.acceptance at h
    split at h
    · next vaultId otp hcall =>
        split at h
        · next r config pending hok hconfig hmatched =>
            split at h
            · cases h
            · next hmethod =>
                rw [verify2fa_otp hconfig hmethod] at hok
                refine ⟨vaultId, otp, config, pending, hcall, ?_, ?_, hconfig, hmethod, hmatched,
                  (Option.some.inj h).symm⟩
                · rw [Bool.eq_false_iff]
                  intro hselect
                  rw [if_pos hselect] at hok
                  cases hok
                · rw [Bool.eq_false_iff]
                  intro hupsert
                  simp only [hupsert, hmatched] at hok
                  split at hok <;> cases hok
        · cases h
    · cases h
  · rintro ⟨vaultId, otp, config, pending, hcall, hselect, hupsert, hconfig, hmethod, hmatched, rfl⟩
    unfold Stores.acceptance
    rw [hcall]
    dsimp only
    rw [verify2fa_otp hconfig hmethod, hconfig, hmatched]
    simp [hselect, hupsert, hmethod]

theorem enable2fa_codes (s : Stores) (now : Nat) (rng : Rng) (fails : Statement → Bool)
    (vaultId : String) (body : Enable2FARequest) :
    ((s.enable2fa now rng fails vaultId body).2.pendingOtps = s.pendingOtps ∧
      (s.enable2fa now rng fails vaultId body).2.issued = s.issued) ∨
    ∃ config code,
      (s.enable2fa now rng fails vaultId body).2.pendingOtps =
        (s.pushOtp now config code).pendingOtps ∧
      (s.enable2fa now rng fails vaultId body).2.issued = s.issued + 1 := by
  have hotp : ∀ config code,
      (s.enrolWithOtp now fails config code).2.pendingOtps =
        (s.pushOtp now config code).pendingOtps ∧
      (s.enrolWithOtp now fails config code).2.issued = s.issued + 1 := by
    intro config code
    unfold Stores.enrolWithOtp
    dsimp only
    split
    · exact ⟨rfl, rfl⟩
    · next hupsert =>
        obtain ⟨-, rfl⟩ := upsert2faConfig_eq_some hupsert
        exact ⟨rfl, rfl⟩
  unfold Stores.enable2fa
  split
  · exact .inl ⟨rfl, rfl⟩
  · split
    · dsimp only
      split
      · exact .inl ⟨rfl, rfl⟩
      · next hupsert =>
          obtain ⟨-, rfl⟩ := upsert2faConfig_eq_some hupsert
          exact .inl ⟨rfl, rfl⟩
    · exact .inr ⟨_, _, hotp _ _⟩
    · exact .inr ⟨_, _, hotp _ _⟩

theorem verifyPendingOtp_sublist :
    ((s.verifyPendingOtp now vaultId otp).2.pendingOtps v).Sublist (s.pendingOtps v) := by
  unfold Stores.verifyPendingOtp
  dsimp only
  by_cases hv : v = vaultId
  · subst hv
    rw [Function.update_self]
    exact List.eraseP_sublist.trans List.filter_sublist
  · rw [Function.update_of_ne hv]

theorem verify2fa_codes :
    (∀ v, ((s.verify2fa mac now fails vaultId otp).2.pendingOtps v).Sublist (s.pendingOtps v)) ∧
      (s.verify2fa mac now fails vaultId otp).2.issued = s.issued := by
  have hchecked : ∀ config,
      (∀ v, ((s.checkOtp mac now vaultId config otp).2.pendingOtps v).Sublist (s.pendingOtps v)) ∧
        (s.checkOtp mac now vaultId config otp).2.issued = s.issued := by
    intro config
    unfold Stores.checkOtp
    split
    · split <;> exact ⟨fun _ => .refl _, rfl⟩
    · exact ⟨fun _ => verifyPendingOtp_sublist, rfl⟩
    · exact ⟨fun _ => verifyPendingOtp_sublist, rfl⟩
  unfold Stores.verify2fa
  split
  · exact ⟨fun _ => .refl _, rfl⟩
  · exact ⟨fun _ => .refl _, rfl⟩
  · next config _ =>
      specialize hchecked config
      split
      · next hcheck => rwa [hcheck] at hchecked
      · next hcheck => rwa [hcheck] at hchecked
      · next hcheck =>
          rw [hcheck] at hchecked
          split
          · exact hchecked
          · next hupsert =>
              obtain ⟨-, rfl⟩ := upsert2faConfig_eq_some hupsert
              exact hchecked

theorem disable2fa_codes :
    (∀ v, ((s.disable2fa fails vaultId).2.pendingOtps v).Sublist (s.pendingOtps v)) ∧
      (s.disable2fa fails vaultId).2.issued = s.issued := by
  unfold Stores.disable2fa Stores.delete2faConfig
  split
  · exact ⟨fun _ => .refl _, rfl⟩
  · next hdelete =>
      split at hdelete
      · cases hdelete
      · obtain rfl := Option.some.inj hdelete
        refine ⟨fun v => ?_, rfl⟩
        dsimp only
        by_cases hv : v = vaultId
        · rw [hv, Function.update_self]
          exact List.nil_sublist _
        · rw [Function.update_of_ne hv]

end Calls

/-! ## Codes -/

/-- Which codes are pending, by the numbers of their issues: each once, for its own vault, and
not after it has been accepted. -/
structure Inv (s : Stores) (clock : Nat) (accepted : List Acceptance) : Prop where
  codes : CodesKept accepted
  pending : ∀ v, ∀ otp ∈ s.pendingOtps v, otp.issue.serial < s.issued ∧
    otp.issue.issuedAt ≤ clock ∧ otp.expiresAt = asSecs otp.issue.issuedAt + 300
  single : ∀ v, ((s.pendingOtps v).map (·.issue.serial)).Nodup
  apart : ∀ v v', ∀ otp ∈ s.pendingOtps v, ∀ otp' ∈ s.pendingOtps v',
    otp.issue.serial = otp'.issue.serial → v = v'
  used : ∀ a ∈ accepted, a.issue.serial < s.issued ∧
    ∀ v, ∀ otp ∈ s.pendingOtps v, otp.issue.serial ≠ a.issue.serial

section Codes

variable {mac : HmacSha1} {s s' : Stores} {clock now : Nat} {accepted : List Acceptance}
  {vaultId v code : String} {pending : PendingOtp} {config : TwoFactorConfig}
  {ks : List Label} {w w' : World} {k : Label}

theorem inv_empty : Inv .empty 0 [] :=
  ⟨⟨List.nodup_nil, by simp⟩, fun _ _ h => absurd h List.not_mem_nil, fun _ => List.nodup_nil,
    fun _ _ _ h => absurd h List.not_mem_nil, fun _ h => absurd h List.not_mem_nil⟩

/-- Codes are dropped. -/
theorem Inv.shrink (h : Inv s clock accepted) (hclock : clock ≤ now)
    (hsub : ∀ v, (s'.pendingOtps v).Sublist (s.pendingOtps v)) (hissued : s'.issued = s.issued) :
    Inv s' now accepted := by
  refine ⟨h.codes, fun v otp hotp => ?_, fun v => ?_, fun v v' otp hotp otp' hotp' => ?_,
    fun a ha => ⟨?_, fun v otp hotp => ?_⟩⟩
  · obtain ⟨hserial, htime, hexpires⟩ := h.pending v otp ((hsub v).subset hotp)
    exact ⟨hissued ▸ hserial, Nat.le_trans htime hclock, hexpires⟩
  · exact (h.single v).sublist ((hsub v).map _)
  · exact h.apart v v' otp ((hsub v).subset hotp) otp' ((hsub v').subset hotp')
  · exact hissued ▸ (h.used a ha).1
  · exact (h.used a ha).2 v otp ((hsub v).subset hotp)

theorem mem_pushOtp {otp : PendingOtp}
    (h : otp ∈ (s.pushOtp now config code).pendingOtps v) :
    otp ∈ s.pendingOtps v ∨ v = config.vaultId ∧ otp.issue.serial = s.issued ∧
      otp.issue.issuedAt = now ∧ otp.expiresAt = asSecs now + 300 := by
  unfold Stores.pushOtp at h
  dsimp only at h
  by_cases hv : v = config.vaultId
  · rw [hv, Function.update_self] at h
    rcases List.mem_append.mp h with h | h
    · exact .inl (hv ▸ h)
    · obtain rfl := List.mem_singleton.mp h
      exact .inr ⟨hv, rfl, rfl, rfl⟩
  · rw [Function.update_of_ne hv] at h
    exact .inl h

/-- A code is issued. -/
theorem Inv.push (h : Inv s clock accepted) (hclock : clock ≤ now) :
    Inv (s.pushOtp now config code) now accepted := by
  have hissued : (s.pushOtp now config code).issued = s.issued + 1 := rfl
  refine ⟨h.codes, fun v otp hotp => ?_, fun v => ?_, fun v v' otp hotp otp' hotp' heq => ?_,
    fun a ha => ⟨?_, fun v otp hotp => ?_⟩⟩
  · rw [hissued]
    rcases mem_pushOtp hotp with hotp | ⟨-, hserial, htime, hexpires⟩
    · obtain ⟨hserial, htime, hexpires⟩ := h.pending v otp hotp
      exact ⟨Nat.lt_succ_of_lt hserial, Nat.le_trans htime hclock, hexpires⟩
    · rw [hserial, htime]
      exact ⟨Nat.lt_succ_self _, Nat.le_refl _, hexpires⟩
  · unfold Stores.pushOtp
    dsimp only
    by_cases hv : v = config.vaultId
    · rw [hv, Function.update_self, List.map_append]
      refine (h.single _).append (List.nodup_singleton _) ?_
      intro serial hold hnew
      obtain ⟨otp, hotp, rfl⟩ := List.mem_map.mp hold
      have hlt := (h.pending _ otp hotp).1
      rw [List.mem_singleton.mp hnew] at hlt
      exact Nat.lt_irrefl _ hlt
    · rw [Function.update_of_ne hv]
      exact h.single v
  · rcases mem_pushOtp hotp with hold | ⟨hv, hserial, -⟩ <;>
      rcases mem_pushOtp hotp' with hold' | ⟨hv', hserial', -⟩
    · exact h.apart v v' otp hold otp' hold' heq
    · have hlt := (h.pending v otp hold).1
      rw [heq, hserial'] at hlt
      exact absurd hlt (Nat.lt_irrefl _)
    · have hlt := (h.pending v' otp' hold').1
      rw [← heq, hserial] at hlt
      exact absurd hlt (Nat.lt_irrefl _)
    · exact hv.trans hv'.symm
  · exact Nat.lt_succ_of_lt (h.used a ha).1
  · rcases mem_pushOtp hotp with hotp | ⟨-, hserial, -⟩
    · exact (h.used a ha).2 v otp hotp
    · rw [hserial]
      exact Nat.ne_of_gt (h.used a ha).1

theorem lt_lifetime {issuedAt : Nat} (h : asSecs now < asSecs issuedAt + 300) :
    now < issuedAt + otpLifetime := by
  unfold asSecs at h
  unfold otpLifetime
  omega

/-- A code is used up. -/
theorem Inv.accept (h : Inv s clock accepted) (hclock : clock ≤ now)
    (hmatched : s.matchedOtp now vaultId code = some pending)
    (hpending : s'.pendingOtps = (s.verifyPendingOtp now vaultId code).2.pendingOtps)
    (hissued : s'.issued = s.issued) :
    Inv s' now (⟨pending.issue, now, config⟩ :: accepted) := by
  have hsub : ∀ v, (s'.pendingOtps v).Sublist (s.pendingOtps v) := fun v => by
    rw [hpending]
    exact verifyPendingOtp_sublist
  have hrest := h.shrink hclock hsub hissued
  have hlive : pending ∈ s.liveOtps now vaultId := List.mem_of_find?_eq_some hmatched
  obtain ⟨hmem, hexpires⟩ := List.mem_filter.mp hlive
  obtain ⟨hserial, htime, hexpiresAt⟩ := h.pending vaultId pending hmem
  have hgone : ∀ v, ∀ otp ∈ s'.pendingOtps v, otp.issue.serial ≠ pending.issue.serial := by
    intro v otp hotp heq
    obtain rfl := h.apart v vaultId otp ((hsub v).subset hotp) pending hmem heq
    -- the codes that have not expired, around the one that is used up
    obtain ⟨hmatch, l₁, l₂, hlist, hbefore⟩ := List.find?_eq_some_iff_append.mp hmatched
    have herased : s'.pendingOtps v = l₁ ++ l₂ := by
      rw [hpending]
      unfold Stores.verifyPendingOtp
      dsimp only
      have hfirst : (pending :: l₂).eraseP (·.code == code) = l₂ := List.eraseP_cons_of_pos hmatch
      rw [Function.update_self, hlist, List.eraseP_append_right _ (by simpa using hbefore), hfirst]
    have hnodup : ((l₁ ++ pending :: l₂).map (·.issue.serial)).Nodup :=
      hlist ▸ (h.single v).sublist (List.filter_sublist.map _)
    rw [List.map_append, List.map_cons, List.nodup_middle, ← List.map_append] at hnodup
    rw [herased] at hotp
    exact (List.nodup_cons.mp hnodup).1 (List.mem_map.mpr ⟨otp, hotp, heq⟩)
  refine ⟨⟨List.nodup_cons.mpr ⟨?_, h.codes.once⟩, ?_⟩, hrest.pending, hrest.single, hrest.apart,
    ?_⟩
  · intro hused
    obtain ⟨a, ha, heq⟩ := List.mem_map.mp hused
    exact (h.used a ha).2 vaultId pending hmem heq.symm
  · intro a ha
    rcases List.mem_cons.mp ha with rfl | ha
    · have hexpired : asSecs now < pending.expiresAt := by simpa using hexpires
      exact ⟨Nat.le_trans htime hclock, lt_lifetime (hexpiresAt ▸ hexpired)⟩
    · exact h.codes.inTime a ha
  · intro a ha
    rcases List.mem_cons.mp ha with rfl | ha
    · exact ⟨hissued ▸ hserial, hgone⟩
    · exact hrest.used a ha

/-- The codes that a verification leaves when it succeeds with one of them. -/
theorem verify2fa_pendingOtps {fails : Statement → Bool}
    (hconfig : s.configs vaultId = some config) (hmethod : config.method ≠ .totp)
    (hselect : fails .select = false) (hmatched : s.matchedOtp now vaultId code = some pending) :
    (s.verify2fa mac now fails vaultId code).2.pendingOtps =
      (s.verifyPendingOtp now vaultId code).2.pendingOtps := by
  rw [verify2fa_otp hconfig hmethod, if_neg (by simp [hselect]), hmatched]
  show (if fails .upsert then _ else _ : Except AppError StatusCode × Stores).2.pendingOtps = _
  split <;> rfl

theorem Inv.next (h : Inv w.stores w.clock w.accepted) (hclock : w.clock ≤ k.now) :
    Inv (w.next mac k).stores (w.next mac k).clock (w.next mac k).accepted := by
  show Inv (w.stores.after mac k) k.now ((w.stores.acceptance mac k).toList ++ w.accepted)
  cases hacceptance : w.stores.acceptance mac k with
  | some a =>
      obtain ⟨vaultId, otp, config, pending, hcall, hselect, -, hconfig, hmethod, hmatched, rfl⟩ :=
        acceptance_eq_some_iff.mp hacceptance
      unfold Stores.after
      rw [hcall]
      exact h.accept hclock hmatched (verify2fa_pendingOtps hconfig hmethod hselect hmatched)
        verify2fa_codes.2
  | none =>
      show Inv (w.stores.after mac k) k.now w.accepted
      unfold Stores.after
      cases k.call with
      | enable vaultId body rng =>
          dsimp only
          rcases enable2fa_codes w.stores k.now rng k.fails vaultId body with
            ⟨hpending, hissued⟩ | ⟨config, code, hpending, hissued⟩
          · exact h.shrink hclock (fun v => hpending ▸ .refl _) hissued
          · have hpushed : Inv (w.stores.pushOtp k.now config code) k.now w.accepted :=
              h.push hclock
            exact hpushed.shrink (Nat.le_refl _) (fun v => hpending ▸ .refl _) hissued
      | verify vaultId otp => exact h.shrink hclock verify2fa_codes.1 verify2fa_codes.2
      | disable vaultId => exact h.shrink hclock disable2fa_codes.1 disable2fa_codes.2
      | clearSession vaultId => exact h.shrink hclock (fun _ => .refl _) rfl

theorem inv_of_run (h : Run (Step mac) .start ks w) : Inv w.stores w.clock w.accepted :=
  h.invariant (I := fun w => Inv w.stores w.clock w.accepted) inv_empty fun _ _ _ hinv hstep =>
    hstep.2 ▸ hinv.next hstep.1

/-- Whatever the calls, a code is accepted once and in time. -/
theorem codesKept_of_run (h : Run (Step mac) .start ks w) : CodesKept w.accepted :=
  (inv_of_run h).codes

end Codes

/-! ## Runs -/

section Runs

variable {mac : HmacSha1} {ks : List Label} {w w' : World} {k : Label} {vaultId : String}

theorem enabled_iff {config : Option TwoFactorConfig} (h : w.stores.configs vaultId = config) :
    Enabled w vaultId ↔ config.any (·.enabled) = true := by
  unfold Enabled Stores.status
  rw [h]
  cases config <;> simp

/-- A vault stays enabled whose configuration is not replaced by one that is not. -/
theorem enabled_update {v : String} {config : Option TwoFactorConfig} (h : Enabled w vaultId)
    (hconfigs : w'.stores.configs = Function.update w.stores.configs v config)
    (hconfig : v = vaultId → config.any (·.enabled) = true) : Enabled w' vaultId := by
  rw [enabled_iff (congrFun hconfigs vaultId)]
  by_cases hv : vaultId = v
  · subst hv
    rw [Function.update_self]
    exact hconfig rfl
  · rw [Function.update_of_ne hv]
    exact (enabled_iff rfl).mp h

theorem enabled_congr (h : Enabled w vaultId) (hconfigs : w'.stores.configs = w.stores.configs) :
    Enabled w' vaultId :=
  (enabled_iff (congrFun hconfigs vaultId)).mpr ((enabled_iff rfl).mp h)

/-- An undisturbed call that is no `disable_2fa` keeps a vault enabled. -/
theorem enabled_next (hundisturbed : Undisturbed w k) (hcall : k.call ≠ .disable vaultId)
    (h : Enabled w vaultId) : Enabled (w.next mac k) vaultId := by
  obtain ⟨call, now, fails⟩ := k
  cases call with
  | enable v body rng =>
      by_cases hstored : body.refusal = none ∧ fails .upsert = false
      · obtain ⟨config, -, -, hconfigs⟩ :=
          enable2fa_configs w.stores now rng v hstored.1 hstored.2
        refine enabled_update h hconfigs ?_
        rintro rfl
        have hdisabled : _ = false := hundisturbed hstored.1 hstored.2
        rw [Enabled, hdisabled] at h
        cases h
      · refine enabled_congr h (enable2fa_configs_eq ?_)
        rw [not_and_or, Bool.not_eq_false] at hstored
        exact hstored
  | verify v otp =>
      rcases verify2fa_configs with hconfigs | ⟨config, -, hconfigs⟩
      · exact enabled_congr h hconfigs
      · exact enabled_update h hconfigs fun _ => rfl
  | disable v =>
      rcases disable2fa_configs with hconfigs | hconfigs
      · exact enabled_congr h hconfigs
      · refine enabled_update h hconfigs ?_
        rintro rfl
        exact absurd rfl hcall
  | clearSession v => exact enabled_congr h rfl

/-- An enrolment that is stored for an enabled vault disables it. -/
theorem not_enabled_next {body : Enable2FARequest} {rng : Rng}
    (hcall : k.call = .enable vaultId body rng) (hvalid : body.refusal = none)
    (hfails : k.fails .upsert = false) : ¬ Enabled (w.next mac k) vaultId := by
  obtain ⟨call, now, fails⟩ := k
  obtain rfl : call = _ := hcall
  obtain ⟨config, -, hdisabled, hconfigs⟩ :=
    enable2fa_configs w.stores now rng vaultId hvalid hfails
  have hconfig : (w.next mac ⟨.enable vaultId body rng, now, fails⟩).stores.configs vaultId =
      some config := by
    refine (congrFun hconfigs vaultId).trans ?_
    rw [Function.update_self]
  rw [enabled_iff hconfig]
  simp [hdisabled]

theorem undisturbed_verify (hundisturbed : Undisturbed w k) {a : Acceptance}
    (h : w.stores.acceptance mac k = some a) : a.issue.IsFor a.config := by
  obtain ⟨vaultId, otp, config, pending, hcall, hselect, hupsert, hconfig, hmethod, hmatched,
    rfl⟩ := acceptance_eq_some_iff.mp h
  unfold Undisturbed at hundisturbed
  rw [hcall] at hundisturbed
  exact hundisturbed hselect hupsert config pending hconfig hmethod hmatched

/-- A call that keeps what is claimed is undisturbed. -/
theorem undisturbed_of_kept
    (hown : ∀ a, w.stores.acceptance mac k = some a → a.issue.IsFor a.config)
    (henabled : ∀ vaultId, Enabled w vaultId → k.call ≠ .disable vaultId →
      Enabled (w.next mac k) vaultId) : Undisturbed w k := by
  unfold Undisturbed
  split
  · next vaultId body rng hcall =>
      intro hvalid hfails
      rw [Bool.eq_false_iff]
      intro h
      refine not_enabled_next hcall hvalid hfails (henabled vaultId h ?_)
      rw [hcall]
      exact Call.noConfusion
  · next vaultId otp hcall =>
      intro hselect hupsert config pending hconfig hmethod hmatched
      exact hown _ (acceptance_eq_some_iff.mpr
        ⟨vaultId, otp, config, pending, hcall, hselect, hupsert, hconfig, hmethod, hmatched, rfl⟩)
  · trivial

theorem step_functional {w₁ w₂ : World} (h₁ : Step mac w k w₁) (h₂ : Step mac w k w₂) : w₁ = w₂ :=
  h₁.2.trans h₂.2.symm

theorem enabled_of_run (h : Run (Guarded (Step mac) Undisturbed) w ks w')
    (henabled : Enabled w vaultId) (hcalls : ∀ k ∈ ks, k.call ≠ .disable vaultId) :
    Enabled w' vaultId := by
  induction h with
  | start => exact henabled
  | next _ hk ih =>
      obtain ⟨⟨-, rfl⟩, hundisturbed⟩ := hk
      exact enabled_next hundisturbed (hcalls _ List.mem_cons_self)
        (ih fun k hk => hcalls k (List.mem_cons_of_mem _ hk))

theorem own_of_run (h : Run (Guarded (Step mac) Undisturbed) .start ks w) :
    ∀ a ∈ w.accepted, a.issue.IsFor a.config := by
  refine h.invariant (I := fun w => ∀ a ∈ w.accepted, a.issue.IsFor a.config)
    (by simp [World.start]) ?_
  rintro w k _ hown ⟨⟨-, rfl⟩, hundisturbed⟩ a ha
  rcases List.mem_append.mp ha with ha | ha
  · exact undisturbed_verify hundisturbed (Option.mem_toList.mp ha)
  · exact hown a ha

/-- In every run, the codes are accepted once, in time and for their own configuration and
vaults stay enabled until they are disabled, exactly if every call is undisturbed. -/
theorem two_factor_iff (hrun : Run (Step mac) .start ks w) :
    Kept mac ks w ↔ Run (Guarded (Step mac) Undisturbed) .start ks w := by
  constructor
  · intro h
    induction hrun with
    | start => exact .start
    | @next ks w w' k hrun hstep ih =>
        have hsub : w.accepted ⊆ w'.accepted := by
          rw [hstep.2]
          exact List.subset_append_right _ _
        refine .next (ih ⟨codesKept_of_run hrun, fun a ha => h.own a (hsub ha), ?_⟩) ⟨hstep, ?_⟩
        · exact fun ks₁ ks₂ w₁ w₂ vaultId hsuffix =>
            h.enabled ks₁ ks₂ w₁ w₂ vaultId (hsuffix.trans (List.suffix_cons _ _))
        · have hown : ∀ a, w.stores.acceptance mac k = some a → a.issue.IsFor a.config := by
            intro a ha
            refine h.own a ?_
            rw [hstep.2]
            exact List.mem_append_left _ (Option.mem_toList.mpr ha)
          refine undisturbed_of_kept hown fun vaultId henabled hcall => ?_
          refine hstep.2 ▸ h.enabled ks [k] w w' vaultId (List.suffix_refl _) hrun
            (.next .start hstep) henabled ?_
          intro k' hk'
          obtain rfl := List.mem_singleton.mp hk'
          exact hcall
  · intro h
    refine ⟨codesKept_of_run hrun, own_of_run h, ?_⟩
    rintro ks₁ ks₂ w₁ w₂ vaultId ⟨ks₃, rfl⟩ h₁ h₂ henabled hcalls
    obtain ⟨u₂, hcut, -⟩ := h.cut
    obtain ⟨u₁, hguarded₁, hguarded₂⟩ := hcut.cut
    have hdet : ∀ s k t u, Step mac s k t → Step mac s k u → t = u :=
      fun _ _ _ _ => step_functional
    obtain rfl := Run.functional hdet hguarded₁.unguard h₁
    obtain rfl := Run.functional hdet hguarded₂.unguard h₂
    exact enabled_of_run hguarded₂ henabled hcalls

end Runs

/-- A vault is enrolled by SMS, and the code that was sent confirms it. -/
theorem enrolled_by_sms : ∃ (mac : HmacSha1) (ks : List Label) (w : World),
    Enabled w "7" ∧ w.accepted.length = 1 ∧ Kept mac ks w := by
  let mac : HmacSha1 := fun _ _ => .replicate 20 0
  let enrol : Label :=
    ⟨.enable "7" ⟨.sms, some "+15550100", none⟩ ⟨42, .replicate 20 0⟩, 10 ^ 9, fun _ => false⟩
  let confirm : Label := ⟨.verify "7" "000042", 2 * 10 ^ 9, fun _ => false⟩
  let enrolled := World.start.next mac enrol
  have hconfirm : Undisturbed enrolled confirm := by
    intro _ _ config pending hconfig _ hmatched
    have hmatch : (enrolled.stores.matchedOtp confirm.now "7" "000042").all fun otp =>
        (enrolled.stores.configs "7").all fun config => decide (otp.issue.IsFor config) := by
      decide +kernel
    rw [hconfig, hmatched] at hmatch
    exact of_decide_eq_true hmatch
  have hrun : Run (Guarded (Step mac) Undisturbed) .start [confirm, enrol]
      (enrolled.next mac confirm) :=
    .next (.next .start ⟨⟨by decide, rfl⟩, fun _ _ => rfl⟩) ⟨⟨by decide, rfl⟩, hconfirm⟩
  exact ⟨mac, _, _, by unfold Enabled; decide +kernel, by decide +kernel,
    (two_factor_iff hrun.unguard).mpr hrun⟩

/-- A code is sent to a phone. An enrolment by email follows, and the code confirms it. -/
theorem code_of_replaced_enrolment : ¬ ∀ (mac : HmacSha1) (ks : List Label) (w : World),
    Run (Step mac) .start ks w → Kept mac ks w := by
  intro h
  let mac : HmacSha1 := fun _ _ => .replicate 20 0
  let bySms : Label :=
    ⟨.enable "7" ⟨.sms, some "+15550100", none⟩ ⟨42, .replicate 20 0⟩, 10 ^ 9, fun _ => false⟩
  let byEmail : Label :=
    ⟨.enable "7" ⟨.email, none, some "owner@example.org"⟩ ⟨7, .replicate 20 0⟩, 2 * 10 ^ 9,
      fun _ => false⟩
  let confirm : Label := ⟨.verify "7" "000042", 3 * 10 ^ 9, fun _ => false⟩
  let w := ((World.start.next mac bySms).next mac byEmail).next mac confirm
  have hrun : Run (Step mac) .start [confirm, byEmail, bySms] w :=
    .next (.next (.next .start ⟨by decide, rfl⟩) ⟨by decide, rfl⟩) ⟨by decide, rfl⟩
  have hother : ¬ ∀ a ∈ w.accepted, a.issue.IsFor a.config := by decide +kernel
  exact hother (h mac _ w hrun).own

end Heirloom.Backend.TwoFactor
