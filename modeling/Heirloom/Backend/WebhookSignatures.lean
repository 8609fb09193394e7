import Mathlib.Algebra.Order.Group.Abs
import Mathlib.Algebra.Order.Group.Int
import Heirloom.Lib.Runs

/-!
# Signed webhook deliveries

A delivery carries a signature of its body and a timestamp. The receiver checks that the
timestamp is recent and that the signature is one of the body. The timestamp is not signed.

Results:
1. `replay_window_iff`: whoever presents only signatures that were made gets a body accepted
   that was not signed recently exactly by a captured signature with a timestamp of his own;
   with the timestamp captured along with it, the signature is of no use later.
2. `stale_delivery_replayed`: a delivery captured long ago that is accepted.
3. `verification_exact_iff`: a request is answered, and accepted exactly with a recent timestamp and
   a signature of its body, if and only if its timestamp does not lie so far in the past that its
   age is no `i64`.
4. `ancient_timestamp_overflows`: a timestamp that stops the request.
-/

namespace Heirloom.Backend.Webhook

open Runs

/-! ## Signing -/

inductive SignatureAlgorithm
  | sha256
  | sha1
  | sha512
deriving DecidableEq

/-- The `prefix` of the header value. -/
def SignatureAlgorithm.headerPrefix : SignatureAlgorithm → String
  | .sha256 => "sha256"
  | .sha1 => "sha1"
  | .sha512 => "sha512"

/-- The keyed hashes of the `hmac` crate: algorithm, secret and message. -/
abbrev Hmac := SignatureAlgorithm → String → String → List UInt8

def hexByte (b : UInt8) : List Char :=
  [Nat.digitChar (b.toNat / 16), Nat.digitChar (b.toNat % 16)]

def hexDigest (bytes : List UInt8) : String := String.ofList (bytes.flatMap hexByte)

def signPayloadWithAlgorithm (mac : Hmac) (body secret : String)
    (algorithm : SignatureAlgorithm) : String :=
  algorithm.headerPrefix ++ "=" ++ hexDigest (mac algorithm secret body)

/-- The two headers of a delivery that is sent at `now`. -/
def buildSignatureHeaders (mac : Hmac) (now : Int) (body secret : String)
    (algorithm : SignatureAlgorithm) : String × String :=
  (signPayloadWithAlgorithm mac body secret algorithm, toString now)

/-! ## Verification -/

def InI64 (x : Int) : Prop := -2 ^ 63 ≤ x ∧ x < 2 ^ 63

instance (x : Int) : Decidable (InI64 x) := inferInstanceAs (Decidable (_ ∧ _))

/-- Whether there is a minus sign, and what follows the sign. -/
def splitSign : List Char → Bool × List Char
  | '-' :: digits => (true, digits)
  | '+' :: digits => (false, digits)
  | digits => (false, digits)

/-- `str::parse::<i64>`: an optional sign and at least one digit. -/
def parseI64 (s : String) : Option Int :=
  let (negative, digits) := splitSign s.toList
  if digits ≠ [] ∧ digits.all Char.isDigit = true then
    let magnitude : Int := (Nat.ofDigitChars 10 digits 0 : Nat)
    let value := if negative then -magnitude else magnitude
    if InI64 value then some value else none
  else none

def timestampToleranceSecs : Int := 300

/-- Why a timestamp is not accepted; the checked arithmetic may also stop the request. -/
inductive TimestampError
  | rejected (reason : String)
  | overflow
deriving DecidableEq

def validateTimestamp (now : Int) (timestamp : Option String) : Except TimestampError Unit :=
  match timestamp with
  | none => .error (.rejected "missing X-Heirloom-Timestamp header")
  | some tsStr =>
      match parseI64 tsStr with
      | none => .error (.rejected ("unparseable timestamp: " ++ tsStr))
      | some tsSecs =>
          if ¬ InI64 (now - tsSecs) ∨ ¬ InI64 |now - tsSecs| then .error .overflow
          else if timestampToleranceSecs < |now - tsSecs| then
            .error (.rejected ("timestamp out of tolerance: |now(" ++ toString now ++ ") - ts(" ++
              toString tsSecs ++ ")| = " ++ toString |now - tsSecs| ++ "s > " ++
              toString timestampToleranceSecs ++ "s"))
          else .ok ()

structure VerificationResult where
  valid : Bool
  algorithm : Option String
  reason : Option String
deriving DecidableEq

/-- What stands before and after the first `c`. -/
def splitChars (c : Char) : List Char → Option (List Char × List Char)
  | [] => none
  | x :: rest =>
      if x = c then some ([], rest)
      else (splitChars c rest).map fun p => (x :: p.1, p.2)

/-- `str::split_once` -/
def splitOnce (c : Char) (s : String) : Option (String × String) :=
  (splitChars c s.toList).map fun p => (String.ofList p.1, String.ofList p.2)

def algorithmOfPrefix : String → Option SignatureAlgorithm
  | "sha256" => some .sha256
  | "sha1" => some .sha1
  | "sha512" => some .sha512
  | _ => none

def constantTimeEq (a b : List UInt8) : Bool :=
  if a.length ≠ b.length then false
  else (a.zip b).foldl (fun diff p => diff ||| (p.1 ^^^ p.2)) 0 == 0

def asBytes (s : String) : List UInt8 := s.toByteArray.data.toList

/-- `None` stands for a panic. -/
def verifyWebhookSignature (mac : Hmac) (now : Int) (body secret : String)
    (signatureHeader timestampHeader : Option String) : Option VerificationResult :=
  match validateTimestamp now timestampHeader with
  | .error .overflow => none
  | .error (.rejected reason) => some ⟨false, none, some reason⟩
  | .ok () => some <|
      match signatureHeader with
      | none => ⟨false, none, some "missing X-Heirloom-Signature header"⟩
      | some sigValue =>
          match splitOnce '=' sigValue with
          | none =>
              ⟨false, none, some "malformed signature header (expected '<alg>=<hex>')"⟩
          | some (start, receivedHex) =>
              match algorithmOfPrefix start with
              | none => ⟨false, some start, some ("unsupported algorithm: " ++ start)⟩
              | some algorithm =>
                  let expected := signPayloadWithAlgorithm mac body secret algorithm
                  let expectedHex := ((splitOnce '=' expected).map (·.2)).getD ""
                  let valid := constantTimeEq (asBytes receivedHex) (asBytes expectedHex)
                  ⟨valid, some start, if valid then none else some "signature mismatch"⟩

/-! ## What is accepted -/

section Verification

variable {mac : Hmac} {now : Int} {body secret : String} {signature timestamp : Option String}
  {algorithm : SignatureAlgorithm} {a b : List UInt8} {c : Char} {s t u : String}

/-- Differences are collected, none of them is lost. -/
theorem foldl_or_eq_zero_iff {l : List (UInt8 × UInt8)} {diff : UInt8} :
    l.foldl (fun diff p => diff ||| (p.1 ^^^ p.2)) diff = 0 ↔ diff = 0 ∧ ∀ p ∈ l, p.1 = p.2 := by
  induction l generalizing diff with
  | nil => simp
  | cons p l ih =>
      rw [List.foldl_cons, ih, UInt8.or_eq_zero_iff, UInt8.xor_eq_zero_iff, List.forall_mem_cons,
        and_assoc]

theorem constantTimeEq_iff : constantTimeEq a b = true ↔ a = b := by
  unfold constantTimeEq
  by_cases hlength : a.length = b.length
  · rw [if_neg (not_not.mpr hlength), beq_iff_eq, foldl_or_eq_zero_iff]
    refine ⟨fun h => ?_, fun h => ⟨rfl, ?_⟩⟩
    · refine List.ext_getElem hlength fun i hi hj => ?_
      have hmem : (a[i], b[i]) ∈ a.zip b := List.mem_iff_getElem.mpr ⟨i, by simp [hi, hj], by simp⟩
      exact h.2 _ hmem
    · rintro p hp
      subst h
      obtain ⟨i, hi, rfl⟩ := List.mem_iff_getElem.mp hp
      simp
  · rw [if_pos hlength]
    exact ⟨fun h => (Bool.false_ne_true h).elim, fun h => absurd (congrArg List.length h) hlength⟩

theorem asBytes_inj : asBytes s = asBytes t ↔ s = t := by
  refine ⟨fun h => ?_, fun h => congrArg asBytes h⟩
  exact String.toByteArray_inj.mp (ByteArray.ext (Array.toList_inj.mp h))

/-- The parts of a split, with the character between them, are the whole. -/
theorem splitChars_eq_some_iff {l l₁ l₂ : List Char} :
    splitChars c l = some (l₁, l₂) ↔ c ∉ l₁ ∧ l = l₁ ++ c :: l₂ := by
  induction l generalizing l₁ with
  | nil => simp [splitChars]
  | cons x rest ih =>
      unfold splitChars
      by_cases hx : x = c
      · rw [if_pos hx]
        cases l₁ with
        | nil => simp [hx]
        | cons y l₁ =>
            simp only [Option.some.injEq, Prod.mk.injEq, reduceCtorEq, false_and, false_iff,
              List.mem_cons, List.cons_append, List.cons.injEq]
            rintro ⟨hc, rfl, -⟩
            exact hc (.inl hx.symm)
      · rw [if_neg hx]
        cases l₁ with
        | nil => simp [hx]
        | cons y l₁ =>
            simp only [Option.map_eq_some_iff, Prod.mk.injEq, List.cons.injEq, List.mem_cons,
              List.cons_append]
            constructor
            · rintro ⟨⟨l₁', l₂'⟩, h, ⟨rfl, rfl⟩, rfl⟩
              obtain ⟨hc, hrest⟩ := ih.mp h
              exact ⟨fun h => h.elim (fun h => hx h.symm) hc, rfl, hrest⟩
            · rintro ⟨hc, rfl, hrest⟩
              exact ⟨(l₁, l₂), ih.mpr ⟨fun h => hc (.inr h), hrest⟩, ⟨rfl, rfl⟩, rfl⟩

theorem splitOnce_eq_some_iff :
    splitOnce c s = some (t, u) ↔ c ∉ t.toList ∧ s.toList = t.toList ++ c :: u.toList := by
  rw [← splitChars_eq_some_iff, splitOnce, Option.map_eq_some_iff]
  constructor
  · rintro ⟨⟨l₁, l₂⟩, h, hp⟩
    obtain ⟨rfl, rfl⟩ := Prod.mk.inj hp
    rw [h, String.toList_ofList, String.toList_ofList]
  · intro h
    exact ⟨_, h, by simp [String.ofList_toList]⟩

theorem algorithmOfPrefix_eq_some_iff :
    algorithmOfPrefix s = some algorithm ↔ s = algorithm.headerPrefix := by
  constructor
  · intro h
    unfold algorithmOfPrefix at h
    split at h <;> cases h <;> rfl
  · rintro rfl
    cases algorithm <;> rfl

/-- Digits do not look like a sign. -/
theorem splitSign_digits {l : List Char} (h : ∀ x ∈ l, x.isDigit = true) :
    splitSign l = (false, l) := by
  unfold splitSign
  split
  · exact absurd (h _ List.mem_cons_self) (by decide)
  · exact absurd (h _ List.mem_cons_self) (by decide)
  · rfl

theorem parseI64_repr {n : Nat} :
    parseI64 n.repr = (if InI64 n then some (n : Int) else none) ∧
      parseI64 ("-" ++ n.repr) = if InI64 (-n : Int) then some (-n : Int) else none := by
  have hdigits : ∀ x ∈ Nat.toDigits 10 n, x.isDigit = true := fun x hx =>
    Nat.isDigit_of_mem_toDigits (by decide) (by decide) hx
  have hall : Nat.toDigits 10 n ≠ [] ∧ (Nat.toDigits 10 n).all Char.isDigit = true :=
    ⟨Nat.toDigits_ne_nil, List.all_eq_true.mpr hdigits⟩
  have hminus : splitSign ("-" ++ n.repr).toList = (true, Nat.toDigits 10 n) := by
    rw [String.toList_append, Nat.toList_repr]
    rfl
  constructor
  · unfold parseI64
    rw [Nat.toList_repr, splitSign_digits hdigits]
    simp only [if_pos hall, Nat.ofDigitChars_ten_toDigits, Bool.false_eq_true, if_false]
  · unfold parseI64
    rw [hminus]
    simp only [if_pos hall, Nat.ofDigitChars_ten_toDigits, if_true]

theorem parseI64_toString (h : InI64 now) : parseI64 (toString now) = some now := by
  rw [Int.toString_eq_repr, Int.repr_eq_if]
  split
  · next hpos =>
      have hnat : ((now.toNat : Nat) : Int) = now := Int.toNat_of_nonneg hpos
      rw [parseI64_repr.1, hnat, if_pos h]
  · next hneg =>
      have hnat : (-((-now).toNat : Nat) : Int) = now := by omega
      rw [parseI64_repr.2, hnat, if_pos h]

theorem inI64_of_parseI64 {ts : Int} (h : parseI64 s = some ts) : InI64 ts := by
  unfold parseI64 at h
  dsimp only at h
  split_ifs at h
  all_goals
    obtain rfl := Option.some.inj h
    assumption

theorem validateTimestamp_ok_iff : validateTimestamp now timestamp = .ok () ↔
    ∃ text ts, timestamp = some text ∧ parseI64 text = some ts ∧
      |now - ts| ≤ timestampToleranceSecs := by
  unfold validateTimestamp
  constructor
  · intro h
    split at h
    · cases h
    · next text =>
        split at h
        · cases h
        · next ts hts =>
            split_ifs at h with hrange hold
            exact ⟨text, ts, rfl, hts, not_lt.mp hold⟩
  · rintro ⟨text, ts, rfl, hts, hnear⟩
    have hbounds := abs_le.mp hnear
    have hrange : ¬ (¬ InI64 (now - ts) ∨ ¬ InI64 |now - ts|) := by
      have hpos := abs_nonneg (now - ts)
      unfold InI64
      unfold timestampToleranceSecs at hnear hbounds
      omega
    simp only [hts]
    rw [if_neg hrange, if_neg (not_lt.mpr hnear)]

/-- The request is found authentic. -/
def Authentic (result : Option VerificationResult) : Prop :=
  ∃ r, result = some r ∧ r.valid = true

theorem splitOnce_signPayload : splitOnce '=' (signPayloadWithAlgorithm mac body secret algorithm) =
    some (algorithm.headerPrefix, hexDigest (mac algorithm secret body)) := by
  refine splitOnce_eq_some_iff.mpr ⟨by cases algorithm <;> decide, ?_⟩
  simp [signPayloadWithAlgorithm]

/-- What is accepted is a recent timestamp with the signature that the secret's holder would
make for the body. -/
theorem authentic_iff :
    Authentic (verifyWebhookSignature mac now body secret signature timestamp) ↔
      validateTimestamp now timestamp = .ok () ∧
        ∃ algorithm, signature = some (signPayloadWithAlgorithm mac body secret algorithm) := by
  unfold verifyWebhookSignature Authentic
  cases htime : validateTimestamp now timestamp with
  | error failure => cases failure <;> simp
  | ok =>
      cases signature with
      | none => simp
      | some header =>
          simp only [Option.some.injEq, exists_eq_left', true_and]
          constructor
          · intro h
            split at h
            · cases h
            · next start received hsplit =>
                split at h
                · cases h
                · next algorithm hprefix =>
                    obtain rfl := algorithmOfPrefix_eq_some_iff.mp hprefix
                    rw [splitOnce_signPayload] at h
                    have hreceived := asBytes_inj.mp (constantTimeEq_iff.mp h)
                    obtain rfl : received = hexDigest (mac algorithm secret body) := hreceived
                    refine ⟨algorithm, String.toList_inj.mp ?_⟩
                    rw [(splitOnce_eq_some_iff.mp hsplit).2]
                    simp [signPayloadWithAlgorithm]
          · rintro ⟨algorithm, rfl⟩
            simp only [splitOnce_signPayload, algorithmOfPrefix_eq_some_iff.mpr rfl,
              Option.map_some, Option.getD_some, constantTimeEq_iff]

/-- The arithmetic stops a request with a timestamp whose age is no `i64`. -/
theorem validateTimestamp_overflow_iff (hnow : 0 ≤ now) (hnow' : now ≤ 2 ^ 62) :
    validateTimestamp now (some t) = .error .overflow ↔
      ∃ ts, parseI64 t = some ts ∧ ts ≤ now - 2 ^ 63 := by
  unfold validateTimestamp
  dsimp only
  cases hts : parseI64 t with
  | none => simp
  | some ts =>
      have hrange := inI64_of_parseI64 hts
      have hage : (¬ InI64 (now - ts) ∨ ¬ InI64 |now - ts|) ↔ ts ≤ now - 2 ^ 63 := by
        unfold InI64 at hrange ⊢
        rcases abs_cases (now - ts) with ⟨habs, _⟩ | ⟨habs, _⟩ <;> rw [habs] <;> omega
      dsimp only
      simp only [Option.some.injEq, exists_eq_left', ← hage]
      constructor
      · intro h
        by_contra hin
        rw [if_neg hin] at h
        split at h <;> cases h
      · intro hover
        rw [if_pos hover]

theorem verify_eq_none_iff {header : String} (hnow : 0 ≤ now) (hnow' : now ≤ 2 ^ 62) :
    verifyWebhookSignature mac now body secret (some header) (some t) = none ↔
      ∃ ts, parseI64 t = some ts ∧ ts ≤ now - 2 ^ 63 := by
  rw [← validateTimestamp_overflow_iff hnow hnow']
  unfold verifyWebhookSignature
  cases validateTimestamp now (some t) with
  | ok => simp
  | error failure => cases failure <;> simp

/-- The headers that are built at a time are accepted for the tolerance. -/
theorem authentic_of_built {later : Int} (hnow : InI64 now) (hle : now ≤ later)
    (hlater : later ≤ now + timestampToleranceSecs) :
    Authentic (verifyWebhookSignature mac later body secret
      (some (buildSignatureHeaders mac now body secret algorithm).1)
      (some (buildSignatureHeaders mac now body secret algorithm).2)) := by
  refine authentic_iff.mpr ⟨validateTimestamp_ok_iff.mpr ⟨_, now, rfl, parseI64_toString hnow, ?_⟩,
    algorithm, rfl⟩
  exact abs_le.mpr ⟨by unfold timestampToleranceSecs; omega, Int.sub_left_le_of_le_add hlater⟩

/-- A request with both headers is answered, and accepted exactly with a timestamp within the
tolerance and a signature of its body, if and only if the age of its timestamp is an `i64`. Headers
that are built now are accepted for 300 seconds. -/
theorem verification_exact_iff (mac : Hmac) (hnow : 0 ≤ now) (hnow' : now ≤ 2 ^ 62)
    (body secret header text : String) :
    ((∃ r, verifyWebhookSignature mac now body secret (some header) (some text) = some r ∧
        (r.valid = true ↔
          (∃ ts, parseI64 text = some ts ∧ |now - ts| ≤ timestampToleranceSecs) ∧
          ∃ algorithm : SignatureAlgorithm, header = algorithm.headerPrefix ++ "=" ++
            hexDigest (mac algorithm secret body))) ↔
      ¬ ∃ ts, parseI64 text = some ts ∧ ts ≤ now - 2 ^ 63) ∧
    ∀ algorithm later, now ≤ later → later ≤ now + timestampToleranceSecs →
      Authentic (verifyWebhookSignature mac later body secret
        (some (buildSignatureHeaders mac now body secret algorithm).1)
        (some (buildSignatureHeaders mac now body secret algorithm).2)) := by
  refine ⟨?_, fun algorithm later hle hlater => authentic_of_built ?_ hle hlater⟩
  · have hnone : verifyWebhookSignature mac now body secret (some header) (some text) = none ↔ _ :=
      verify_eq_none_iff hnow hnow'
    rw [← hnone]
    constructor
    · rintro ⟨r, hr, -⟩ hpanic
      rw [hr] at hpanic
      cases hpanic
    · intro hsome
      obtain ⟨r, hr⟩ := Option.ne_none_iff_exists'.mp hsome
      have hvalid : r.valid = true ↔ Authentic (some r) := by simp [Authentic]
      refine ⟨r, hr, ?_⟩
      rw [hvalid, ← hr, authentic_iff, validateTimestamp_ok_iff]
      simp only [Option.some.injEq, signPayloadWithAlgorithm]
      refine and_congr_left' ⟨?_, fun ⟨ts, h⟩ => ⟨text, ts, rfl, h⟩⟩
      rintro ⟨_, ts, rfl, h⟩
      exact ⟨ts, h⟩
  · unfold InI64
    omega

end Verification

/-- The hash of one message under one secret. -/
def recordedMac : Hmac := fun algorithm secret body =>
  if algorithm = .sha256 ∧ secret = "test-secret" ∧ body = "vault_created 7" then
    [10, 145, 170, 157, 90, 98, 144, 228, 218, 149, 150, 71, 102, 223, 245, 26, 13, 121, 209, 82,
      155, 217, 59, 185, 144, 19, 13, 180, 162, 166, 20, 163]
  else []

/-- A request that is checked 200 seconds after its timestamp. -/
theorem verification_exact_today : ∃ r, verifyWebhookSignature recordedMac 1700000200
    "vault_created 7" "test-secret"
    (some "sha256=0a91aa9d5a6290e4da95964766dff51a0d79d1529bd93bb990130db4a2a614a3")
    (some "1700000000") = some r ∧ r.valid = true := by
  obtain ⟨r, hr, hvalid⟩ := (verification_exact_iff recordedMac
    (show (0 : Int) ≤ 1700000200 by decide) (by decide) "vault_created 7" "test-secret"
    "sha256=0a91aa9d5a6290e4da95964766dff51a0d79d1529bd93bb990130db4a2a614a3" "1700000000").1.mpr (by
      rintro ⟨ts, hts, hle⟩
      obtain rfl : 1700000000 = ts := Option.some.inj hts
      revert hle
      decide)
  exact ⟨r, hr, hvalid.mpr ⟨⟨1700000000, by decide, by decide⟩, .sha256, by decide⟩⟩

/-- Three hundred billion years ago. -/
theorem ancient_timestamp_overflows : ¬ ∀ (mac : Hmac) (now : Int) (body secret header text : String),
    0 ≤ now → now ≤ 2 ^ 62 →
      ∃ r, verifyWebhookSignature mac now body secret (some header) (some text) = some r := by
  intro h
  obtain ⟨r, hr⟩ := h (fun _ _ _ => []) 1700000000 "" "" "sha256=" "-9223372035154775808"
    (by decide) (by decide)
  rw [(verify_eq_none_iff (by decide) (by decide)).mpr
    ⟨-9223372035154775808, by decide, by decide⟩] at hr
  cases hr

/-! ## Deliveries and their replay -/

/-- The holder of the secret has signed a body. -/
structure Signing where
  body : String
  algorithm : SignatureAlgorithm
  time : Int

/-- What a receiver gets to see. -/
structure Delivery where
  body : String
  signature : Option String
  timestamp : Option String

/-- The delivery as it is sent. -/
def Signing.delivery (mac : Hmac) (secret : String) (g : Signing) : Delivery :=
  let headers := buildSignatureHeaders mac g.time g.body secret g.algorithm
  ⟨g.body, some headers.1, some headers.2⟩

/-- Without the secret, a signature of a body comes from the one who signed it. -/
def Unforged (mac : Hmac) (secret : String) (signings : List Signing) (d : Delivery) : Prop :=
  ∀ algorithm, d.signature = some (signPayloadWithAlgorithm mac d.body secret algorithm) →
    ∃ g ∈ signings, g.body = d.body ∧ g.algorithm = algorithm

inductive Event
  | sign (g : Signing)
  | verify (now : Int) (d : Delivery) (result : Option VerificationResult)

/-- The holder of the secret signs, anybody presents deliveries that are not forged. The state
is what has been signed. -/
inductive Step (mac : Hmac) (secret : String) : List Signing → Event → List Signing → Prop
  | sign {signings : List Signing} {g : Signing} :
      InI64 g.time → Step mac secret signings (.sign g) (g :: signings)
  | verify {signings : List Signing} {now : Int} {d : Delivery} :
      Unforged mac secret signings d →
      Step mac secret signings
        (.verify now d (verifyWebhookSignature mac now d.body secret d.signature d.timestamp))
        signings

/-- The body was signed within the tolerance. -/
def SignedRecently (signings : List Signing) (now : Int) (body : String) : Prop :=
  ∃ g ∈ signings, g.body = body ∧ |now - g.time| ≤ timestampToleranceSecs

/-- A captured signature, of a body that was not signed recently, comes with a timestamp that
is recent. -/
structure Replayed (mac : Hmac) (secret : String) (signings : List Signing) (now : Int)
    (d : Delivery) : Prop where
  captured : ∃ g ∈ signings, d.body = g.body ∧ d.signature = (g.delivery mac secret).signature
  stale : ∀ g ∈ signings, g.body = d.body → timestampToleranceSecs < |now - g.time|
  timestamp : ∃ text ts, d.timestamp = some text ∧ parseI64 text = some ts ∧
    |now - ts| ≤ timestampToleranceSecs

section Replays

variable {mac : Hmac} {secret : String} {signings signings' : List Signing} {now : Int}
  {d : Delivery} {ks : List Event} {result : Option VerificationResult}

theorem times_inI64 (hrun : Run (Step mac secret) [] ks signings) :
    ∀ g ∈ signings, InI64 g.time := by
  refine hrun.invariant (I := fun l => ∀ g ∈ l, InI64 g.time) (by simp) fun _ _ _ hI hstep => ?_
  cases hstep with
  | sign hg => exact List.forall_mem_cons.mpr ⟨hg, hI⟩
  | verify => exact hI

/-- A replay is accepted. -/
theorem Replayed.authentic (h : Replayed mac secret signings now d) :
    Authentic (verifyWebhookSignature mac now d.body secret d.signature d.timestamp) := by
  obtain ⟨g, -, hbody, hsignature⟩ := h.captured
  refine authentic_iff.mpr ⟨validateTimestamp_ok_iff.mpr h.timestamp, g.algorithm, ?_⟩
  rw [hsignature, hbody]
  rfl

/-- In every run and for every delivery that is presented: it is accepted only if its body was
signed within 300 seconds, unless it is a captured signature with a recent timestamp although
its body was not signed recently. No delivery is of that kind that is presented as it was
captured, with its own timestamp. -/
theorem replay_window_iff (hrun : Run (Step mac secret) [] ks signings)
    (hstep : Step mac secret signings (.verify now d result) signings') :
    ((Authentic result → SignedRecently signings now d.body) ↔
      ¬ Replayed mac secret signings now d) ∧
    ∀ g ∈ signings, d = g.delivery mac secret → ¬ Replayed mac secret signings now d := by
  cases hstep with
  | verify hunforged =>
      refine ⟨⟨fun h hreplay => ?_, fun h hauthentic => ?_⟩, ?_⟩
      · obtain ⟨g, hg, hbody, hnear⟩ := h hreplay.authentic
        exact absurd hnear (not_le.mpr (hreplay.stale g hg hbody))
      · obtain ⟨htime, algorithm, hsignature⟩ := authentic_iff.mp hauthentic
        obtain ⟨g, hg, hbody, rfl⟩ := hunforged algorithm hsignature
        by_contra hold
        refine h ⟨⟨g, hg, hbody.symm, ?_⟩, fun g' hg' hbody' => ?_,
          validateTimestamp_ok_iff.mp htime⟩
        · rw [hsignature, ← hbody]
          rfl
        · exact not_le.mp fun hnear => hold ⟨g', hg', hbody', hnear⟩
      · rintro g hg rfl hreplay
        obtain ⟨text, ts, htext, hts, hnear⟩ := hreplay.timestamp
        obtain rfl : toString g.time = text := Option.some.inj htext
        obtain rfl : g.time = ts :=
          Option.some.inj ((parseI64_toString (times_inI64 hrun g hg)).symm.trans hts)
        exact absurd hnear (not_le.mpr (hreplay.stale g hg rfl))

end Replays

def recorded : Signing := ⟨"vault_created 7", .sha256, 1700000000⟩

theorem run_recorded : Run (Step recordedMac "test-secret") [] [.sign recorded] [recorded] :=
  .next .start (.sign (by decide))

theorem unforged_recorded (timestamp : Option String) :
    Unforged recordedMac "test-secret" [recorded]
      { recorded.delivery recordedMac "test-secret" with timestamp := timestamp } := by
  intro algorithm h
  replace h : some (signPayloadWithAlgorithm recordedMac "vault_created 7" "test-secret" .sha256) =
    some (signPayloadWithAlgorithm recordedMac "vault_created 7" "test-secret" algorithm) := h
  cases algorithm with
  | sha256 => exact ⟨_, List.mem_singleton_self _, rfl, rfl⟩
  | sha1 => exact absurd h (by decide)
  | sha512 => exact absurd h (by decide)

/-- A delivery that is checked as it was sent, 200 seconds later. -/
theorem replay_window_unmodified : SignedRecently [recorded] 1700000200 "vault_created 7" := by
  have hstep : Step recordedMac "test-secret" [recorded] (.verify 1700000200 _ _) _ :=
    .verify (unforged_recorded (some "1700000000"))
  have hwindow := replay_window_iff run_recorded hstep
  refine hwindow.1.mpr (hwindow.2 _ (List.mem_singleton_self _) rfl) ?_
  exact authentic_iff.mpr
    ⟨validateTimestamp_ok_iff.mpr ⟨_, 1700000000, rfl, by decide, by decide⟩, _, rfl⟩

/-- A delivery of long ago, presented with the timestamp of today. -/
theorem stale_delivery_replayed :
    ¬ ∀ (mac : Hmac) (secret : String) (ks : List Event) (signings signings' : List Signing)
      (now : Int) (d : Delivery) (result : Option VerificationResult),
      Run (Step mac secret) [] ks signings →
      Step mac secret signings (.verify now d result) signings' →
        Authentic result → SignedRecently signings now d.body := by
  intro h
  obtain ⟨g, hg, -, hnear⟩ := h _ _ _ _ _ 1800000000 _ _ run_recorded
    (.verify (unforged_recorded (some "1800000000")))
    (authentic_iff.mpr
      ⟨validateTimestamp_ok_iff.mpr ⟨_, 1800000000, rfl, by decide, by decide⟩, _, rfl⟩)
  obtain rfl := List.mem_singleton.mp hg
  revert hnear
  decide

end Heirloom.Backend.Webhook
