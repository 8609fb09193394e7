import Heirloom.Verifier.Invalidation
import Mathlib.Data.List.Pairwise

/-!
# Consistency of a batch

`verify_credentials_consistent` tests the claims of a batch in pairs. Two heuristics tell what a
claim is, and they overlap: the range of an age claim is below 200, so its first byte is zero and
reads as the KYC status "pending" (`extractKycStatus_of_age`). The rule for two statuses lets
"pending" stand beside "approved", which the module and its tests call a conflict, and a batch of
one pair has no pairs of claims, which counts as an error.

* `compatible_false_iff`: which two claims the code holds against each other.
* `consistent_iff`: what the verdict on a batch of verified pairs says.
* `batch_consistency_iff`: when the verdict is the absence of a conflict, and when it passes from
  a batch to the batches inside it; it never depends on the order.
-/

namespace Heirloom.Verifier

open Transaction TypedStore Runs

/-! ## Conflicts -/

/-- The KYC status that a claim states. An age claim states none. -/
def claimStatus (claim : Bytes) : Option KycStatus :=
  if isAgeClaim claim then none else (extractKycStatus claim).filter fun x => x ≠ .unknown

/-- Two age claims whose ranges have no age in common. -/
def AgesDisjoint (a b : Bytes) : Prop :=
  isAgeClaim a = true ∧ isAgeClaim b = true ∧
    ∃ x y, parseAgeClaim a = some x ∧ parseAgeClaim b = some y ∧ ageRangesCompatible x y = false

/-- Two claims that cannot both be true: disjoint age ranges, or different statuses. -/
inductive Conflict (a b : Bytes) : Prop
  | ages : AgesDisjoint a b → Conflict a b
  | statuses {x y : KycStatus} :
      claimStatus a = some x → claimStatus b = some y → x ≠ y → Conflict a b

section Claims

variable {a b claim : Bytes} {x y : KycStatus}

theorem ageRangesCompatible_comm (x y : Nat × Nat) :
    ageRangesCompatible x y = ageRangesCompatible y x := by
  simp only [ageRangesCompatible, and_comm]

theorem AgesDisjoint.symm (h : AgesDisjoint a b) : AgesDisjoint b a := by
  obtain ⟨ha, hb, x, y, hx, hy, hdisjoint⟩ := h
  exact ⟨hb, ha, y, x, hy, hx, by rwa [ageRangesCompatible_comm]⟩

theorem Conflict.symm (h : Conflict a b) : Conflict b a := by
  cases h with
  | ages h => exact .ages h.symm
  | statuses hx hy hne => exact .statuses hy hx hne.symm

/-- The range of an age claim is not empty. -/
theorem range_of_age (h : isAgeClaim claim = true) :
    ∃ range, parseAgeClaim claim = some range ∧ range.1 < range.2 ∧ range.2 < 200 := by
  obtain ⟨range, hrange, hbounds⟩ := (Option.any_eq_true _ _).mp h
  exact ⟨range, hrange, of_decide_eq_true hbounds⟩

theorem not_agesDisjoint_self : ¬ AgesDisjoint a a := by
  rintro ⟨hage, -, x, y, hx, hy, hdisjoint⟩
  obtain ⟨range, hrange, hlt, -⟩ := range_of_age hage
  obtain rfl := Option.some.inj (hx.symm.trans hrange)
  obtain rfl := Option.some.inj (hy.symm.trans hrange)
  have hoverlap : y.1 ≤ y.2 ∧ y.1 ≤ y.2 := ⟨hlt.le, hlt.le⟩
  simp only [ageRangesCompatible, decide_eq_false_iff_not] at hdisjoint
  exact hdisjoint hoverlap

theorem not_conflict_self : ¬ Conflict a a := by
  intro h
  cases h with
  | ages h => exact not_agesDisjoint_self h
  | statuses hx hy hne => exact hne (Option.some.inj (hx.symm.trans hy))

theorem claimStatus_eq_some : claimStatus claim = some x ↔
    isAgeClaim claim = false ∧ extractKycStatus claim = some x ∧ x ≠ .unknown := by
  unfold claimStatus
  split
  case isTrue h => simp [h]
  case isFalse h => simp [h, Option.filter_eq_some_iff]

/-- The first byte of an age claim is zero. -/
theorem extractKycStatus_of_age (h : isAgeClaim claim = true) :
    extractKycStatus claim = some .pending := by
  obtain ⟨range, hrange, hlt, hsmall⟩ := range_of_age h
  unfold parseAgeClaim at hrange
  split at hrange
  case isTrue => exact nomatch hrange
  case isFalse hlong =>
    obtain rfl := Option.some.inj hrange
    obtain ⟨b₀, b₁, b₂, b₃, rest, rfl⟩ : ∃ b₀ b₁ b₂ b₃ rest, claim = b₀ :: b₁ :: b₂ :: b₃ :: rest := by
      match claim, hlong with
      | b₀ :: b₁ :: b₂ :: b₃ :: rest, _ => exact ⟨b₀, b₁, b₂, b₃, rest, rfl⟩
    have hzero : b₀ = 0 := by
      have hmin := hlt.trans hsmall
      simp only [fromBeBytes, List.take_succ_cons, List.take_zero, List.foldl_cons,
        List.foldl_nil] at hmin
      exact UInt8.toNat_inj.mp (show b₀.toNat = 0 by omega)
    rw [extractKycStatus, hzero]
    rfl

/-- A claim that a rejected one excludes: "pending" or "approved" by its first byte. -/
def Undecided (claim : Bytes) : Prop :=
  isAgeClaim claim = true ∨ claimStatus claim = some .pending ∨ claimStatus claim = some .approved

theorem undecided_iff : Undecided claim ↔
    extractKycStatus claim = some .pending ∨ extractKycStatus claim = some .approved := by
  unfold Undecided
  rw [claimStatus_eq_some, claimStatus_eq_some]
  cases hage : isAgeClaim claim with
  | true => simp [extractKycStatus_of_age hage]
  | false => simp

theorem rejected_iff : claimStatus claim = some .rejected ↔
    extractKycStatus claim = some .rejected := by
  rw [claimStatus_eq_some]
  constructor
  · exact fun h => h.2.1
  · intro h
    refine ⟨Bool.eq_false_iff.mpr fun hage => ?_, h, by decide⟩
    rw [extractKycStatus_of_age hage] at h
    exact nomatch h

/-- Two statuses exclude each other if exactly one of them is "rejected". -/
theorem statuses_compatible_false (hx : x ≠ .unknown) (hy : y ≠ .unknown) :
    kycStatusesCompatible x y = false ↔
      (x = .rejected ∧ (y = .pending ∨ y = .approved)) ∨
        ((x = .pending ∨ x = .approved) ∧ y = .rejected) := by
  cases x <;> cases y <;> first | exact absurd rfl hx | exact absurd rfl hy | decide

theorem isKycStatusClaim_iff :
    isKycStatusClaim claim = true ↔ ∃ x, extractKycStatus claim = some x ∧ x ≠ .unknown := by
  simp only [isKycStatusClaim, Option.any_eq_true, decide_eq_true_eq]

/-- The code holds two claims against each other if their age ranges are disjoint or if exactly
one of them is rejected. -/
theorem compatible_false_iff : areCredentialsCompatible a b = false ↔
    AgesDisjoint a b ∨ (claimStatus a = some .rejected ∧ Undecided b) ∨
      (Undecided a ∧ claimStatus b = some .rejected) := by
  rw [rejected_iff, rejected_iff, undecided_iff, undecided_iff]
  unfold areCredentialsCompatible
  split
  case isTrue hages =>
    obtain ⟨ha, hb⟩ := (Bool.and_eq_true _ _).mp hages
    obtain ⟨x, hx, -, -⟩ := range_of_age ha
    obtain ⟨y, hy, -, -⟩ := range_of_age hb
    rw [extractKycStatus_of_age ha, extractKycStatus_of_age hb, hx, hy]
    constructor
    · intro h
      exact .inl ⟨ha, hb, x, y, hx, hy, by simpa using (Bool.or_eq_false_iff.mp h).2⟩
    · rintro (hdisjoint | ⟨h, -⟩ | ⟨-, h⟩)
      · obtain ⟨-, -, x', y', hx', hy', hranges⟩ := id hdisjoint
        obtain rfl := Option.some.inj (hx'.symm.trans hx)
        obtain rfl := Option.some.inj (hy'.symm.trans hy)
        have hne : a ≠ b := by
          rintro rfl
          exact not_agesDisjoint_self hdisjoint
        simp [hne, hranges]
      · exact nomatch h
      · exact nomatch h
  case isFalse hages =>
    have hnone : ¬ AgesDisjoint a b := fun h => hages (by rw [h.1, h.2.1]; rfl)
    rw [or_iff_right hnone]
    split
    case isTrue hstatuses =>
      obtain ⟨ha, hb⟩ := (Bool.and_eq_true _ _).mp hstatuses
      obtain ⟨x, hx, hxknown⟩ := isKycStatusClaim_iff.mp ha
      obtain ⟨y, hy, hyknown⟩ := isKycStatusClaim_iff.mp hb
      simp only [hx, hy, Option.some.injEq, ← statuses_compatible_false hxknown hyknown,
        Bool.or_eq_false_iff, Option.all_some, decide_eq_false_iff_not]
      refine ⟨fun h => h.2, fun h => ⟨?_, h⟩⟩
      rintro rfl
      obtain rfl := Option.some.inj (hx.symm.trans hy)
      cases x <;> exact nomatch h
    case isFalse hstatuses =>
      refine iff_of_false (fun h => nomatch h) ?_
      rintro (⟨ha, hb⟩ | ⟨ha, hb⟩)
      · refine hstatuses ?_
        rw [isKycStatusClaim_iff.mpr ⟨_, ha, by decide⟩]
        rcases hb with hb | hb
        · exact isKycStatusClaim_iff.mpr ⟨_, hb, by decide⟩
        · exact isKycStatusClaim_iff.mpr ⟨_, hb, by decide⟩
      · refine hstatuses ?_
        rw [isKycStatusClaim_iff.mpr ⟨_, hb, by decide⟩, Bool.and_true]
        rcases ha with ha | ha
        · exact isKycStatusClaim_iff.mpr ⟨_, ha, by decide⟩
        · exact isKycStatusClaim_iff.mpr ⟨_, ha, by decide⟩

end Claims

/-! ## Batches -/

/-- One of the claims states the status. -/
def Stated (claims : List Bytes) (x : KycStatus) : Prop :=
  ∃ claim ∈ claims, claimStatus claim = some x

/-- Two of the claims are age claims with disjoint ranges. -/
def AgesClash (claims : List Bytes) : Prop := ∃ a ∈ claims, ∃ b ∈ claims, AgesDisjoint a b

/-- What the code finds in a batch that it reports: disjoint age ranges, or a rejected claim
beside one that is pending, approved or about an age. -/
def Detected (claims : List Bytes) : Prop :=
  AgesClash claims ∨ Stated claims .rejected ∧ ∃ claim ∈ claims, Undecided claim

section Batches

variable {claims : List Bytes} {a b : Bytes} {x y : KycStatus}

/-- A relation of each claim to itself and both ways round need not look at the order. -/
theorem pairwise_iff_forall {R : Bytes → Bytes → Prop} (hrefl : ∀ a, R a a)
    (hsymm : ∀ {a b}, R a b → R b a) :
    claims.Pairwise R ↔ ∀ a ∈ claims, ∀ b ∈ claims, R a b := by
  constructor
  · intro h a ha b hb
    exact h.forall_of_forall_of_flip (fun a _ => hrefl a) (h.imp hsymm) ha hb
  · exact List.pairwise_of_forall_mem_list

theorem compatible_self : areCredentialsCompatible a a = true := by
  refine Bool.not_eq_false _ ▸ fun h => ?_
  rcases compatible_false_iff.mp h with hages | ⟨hrejected, hother⟩ | ⟨hother, hrejected⟩
  · exact not_agesDisjoint_self hages
  all_goals
    rw [rejected_iff] at hrejected
    rw [undecided_iff, hrejected] at hother
    exact hother.elim (fun h => nomatch h) (fun h => nomatch h)

theorem compatible_symm (h : areCredentialsCompatible a b = true) :
    areCredentialsCompatible b a = true := by
  refine Bool.not_eq_false _ ▸ fun hfalse => ?_
  have hback : areCredentialsCompatible a b = false := by
    rw [compatible_false_iff] at hfalse ⊢
    exact hfalse.imp AgesDisjoint.symm fun h => h.symm.imp And.symm And.symm
  rw [h] at hback
  exact nomatch hback

theorem pairwise_compatible_iff :
    claims.Pairwise (fun a b => areCredentialsCompatible a b = true) ↔ ¬ Detected claims := by
  rw [pairwise_iff_forall (fun _ => compatible_self) compatible_symm]
  constructor
  · rintro hall (⟨a, ha, b, hb, hages⟩ | ⟨⟨a, ha, hrejected⟩, b, hb, hother⟩)
    · exact absurd (hall a ha b hb) (by rw [compatible_false_iff.mpr (.inl hages)]; decide)
    · exact absurd (hall a ha b hb)
        (by rw [compatible_false_iff.mpr (.inr (.inl ⟨hrejected, hother⟩))]; decide)
  · intro hnone a ha b hb
    refine Bool.not_eq_false _ ▸ fun h => hnone ?_
    rcases compatible_false_iff.mp h with hages | ⟨hrejected, hother⟩ | ⟨hother, hrejected⟩
    · exact .inl ⟨a, ha, b, hb, hages⟩
    · exact .inr ⟨⟨a, ha, hrejected⟩, b, hb, hother⟩
    · exact .inr ⟨⟨b, hb, hrejected⟩, a, ha, hother⟩

theorem pairwise_conflict_iff : claims.Pairwise (fun a b => ¬ Conflict a b) ↔
    ¬ (AgesClash claims ∨ ∃ x y, Stated claims x ∧ Stated claims y ∧ x ≠ y) := by
  rw [pairwise_iff_forall (fun _ => not_conflict_self) fun h h' => h h'.symm]
  constructor
  · rintro hall (⟨a, ha, b, hb, hages⟩ | ⟨x, y, ⟨a, ha, hx⟩, ⟨b, hb, hy⟩, hne⟩)
    · exact hall a ha b hb (.ages hages)
    · exact hall a ha b hb (.statuses hx hy hne)
  · intro hnone a ha b hb h
    cases h with
    | ages hages => exact hnone (.inl ⟨a, ha, b, hb, hages⟩)
    | statuses hx hy hne => exact hnone (.inr ⟨_, _, ⟨a, ha, hx⟩, ⟨b, hb, hy⟩, hne⟩)

/-- Different statuses are two of the three that a claim can state. -/
theorem exists_statuses_iff : (∃ x y, Stated claims x ∧ Stated claims y ∧ x ≠ y) ↔
    (Stated claims .pending ∧ Stated claims .approved) ∨
      (Stated claims .rejected ∧ (Stated claims .pending ∨ Stated claims .approved)) := by
  have hknown : ¬ Stated claims .unknown := by
    rintro ⟨claim, -, hclaim⟩
    exact (claimStatus_eq_some.mp hclaim).2.2 rfl
  constructor
  · rintro ⟨x, y, hx, hy, hne⟩
    cases x <;> cases y <;> first
      | exact absurd rfl hne
      | exact absurd hx hknown
      | exact absurd hy hknown
      | simp [hx, hy]
  · rintro (⟨hp, ha⟩ | ⟨hr, hp | ha⟩)
    · exact ⟨_, _, hp, ha, by decide⟩
    · exact ⟨_, _, hr, hp, by decide⟩
    · exact ⟨_, _, hr, ha, by decide⟩

theorem exists_undecided_iff : (∃ claim ∈ claims, Undecided claim) ↔
    (∃ claim ∈ claims, isAgeClaim claim = true) ∨ Stated claims .pending ∨
      Stated claims .approved := by
  simp only [Undecided, Stated, and_or_left, exists_or]

theorem all_claimPairs {f : Bytes → Bytes → Bool} :
    (claimPairs claims).all (fun p => f p.1 p.2) = true ↔
      claims.Pairwise fun a b => f a b = true := by
  induction claims with
  | nil => simp [claimPairs]
  | cons claim rest ih =>
      rw [claimPairs, List.all_append, Bool.and_eq_true, ih, List.pairwise_cons, List.all_map,
        List.all_eq_true]
      rfl

theorem claimPairs_eq_nil : claimPairs claims = [] ↔ claims.length < 2 := by
  match claims with
  | [] => simp [claimPairs]
  | [_] => simp [claimPairs]
  | _ :: _ :: _ => simp [claimPairs]

/-- The verdict on the claims: two of them at least, and nothing found. -/
theorem batch_consistent_iff :
    verifyBatchConsistency (claimPairs claims) = true ↔ 2 ≤ claims.length ∧ ¬ Detected claims := by
  rw [verifyBatchConsistency, Bool.and_eq_true, decide_eq_true_eq, Ne, claimPairs_eq_nil, not_lt,
    ← pairwise_compatible_iff, ← all_claimPairs]

end Batches

/-! ## The verdict -/

/-- The claims of a batch. -/
def claimsOf (batch : List (Bytes × Bytes)) : List Bytes := batch.map (·.2)

/-- The call returns `b` on the pairs of the batch. -/
def Verdict (batch : List (Bytes × Bytes)) (e : Env) (s : State) (b : Bool) : Prop :=
  ∃ t, verifyCredentialsConsistent (batch.map (·.1)) (claimsOf batch) e s = .ok (b, t)

/-- The verdict is right: it is the absence of a conflict. -/
def SoundVerdict (batch : List (Bytes × Bytes)) (e : Env) (s : State) : Prop :=
  ∃ b, Verdict batch e s b ∧ (b = true ↔ (claimsOf batch).Pairwise fun x y => ¬ Conflict x y)

/-- A batch that is consistent has consistent batches inside. -/
def Hereditary (batch : List (Bytes × Bytes)) (e : Env) (s : State) : Prop :=
  Verdict batch e s true → ∀ part, part.Sublist batch → part ≠ [] → Verdict part e s true

section Verdicts

variable {e : Env} {s : State} {batch part : List (Bytes × Bytes)} {b : Bool}

/-- Verified pairs verify one after the other: a verification changes only the audit trail. -/
theorem verifyAll_of_verified {pairs : List (Bytes × Bytes)}
    (h : ∀ pair ∈ pairs, ReturnsTrue (verifyClaim pair.1 pair.2) e s) :
    ReturnsTrue (verifyAll pairs) e s := by
  induction pairs generalizing s with
  | nil => exact ⟨s, rfl⟩
  | cons pair rest ih =>
      obtain ⟨⟨t, hfirst⟩, hrest⟩ := List.forall_mem_cons.mp h
      have hframe : SameBut [.audit] s t := verifyClaim_frame _ _ hfirst
      have hsame : ∀ p c, t.vouched p c = s.vouched p c ∧ t.revoked p c = s.revoked p c := by
        intro p c
        simp only [State.vouched, State.revoked,
          hframe.attestation (by simp : Area.attestations ∉ _),
          hframe.invalidated (by simp : Area.invalidations ∉ _),
          hframe.registered (by simp : Area.oracles ∉ _), and_self]
      obtain ⟨u, hu⟩ := ih fun q hq => by
        rw [verifyClaim_true, (hsame _ _).1, (hsame _ _).2]
        exact verifyClaim_true.mp (hrest q hq)
      refine ⟨u, Tx.ok_bind.mpr ⟨true, t, hfirst, ?_⟩⟩
      simpa using hu

/-- The verdict on verified pairs. -/
theorem verdict_iff (hne : batch ≠ [])
    (hverified : ∀ pair ∈ batch, ReturnsTrue (verifyClaim pair.1 pair.2) e s) :
    Verdict batch e s b ↔ b = verifyBatchConsistency (claimPairs (claimsOf batch)) := by
  obtain ⟨t, ht⟩ := verifyAll_of_verified hverified
  have hzip : (batch.map (·.1)).zip (claimsOf batch) = batch := by
    rw [claimsOf, List.zip_map', List.map_id'']
    exact fun _ => rfl
  have hcall : verifyCredentialsConsistent (batch.map (·.1)) (claimsOf batch) e s =
      .ok (verifyBatchConsistency (claimPairs (claimsOf batch)), t) := by
    simp only [verifyCredentialsConsistent, Tx.ok_bind, ok_require, hzip]
    refine ⟨(), s, ⟨by simp [claimsOf], rfl⟩, (), s, ⟨by simpa using hne, rfl⟩, true, t, ht, ?_⟩
    simp
  rw [Verdict, hcall]
  constructor
  · rintro ⟨_, h⟩
    exact (Prod.mk.inj (Except.ok.inj h)).1.symm
  · rintro rfl
    exact ⟨t, rfl⟩

theorem consistent_iff (hne : batch ≠ [])
    (hverified : ∀ pair ∈ batch, ReturnsTrue (verifyClaim pair.1 pair.2) e s) :
    Verdict batch e s true ↔ 2 ≤ batch.length ∧ ¬ Detected (claimsOf batch) := by
  rw [verdict_iff hne hverified, eq_comm, batch_consistent_iff, claimsOf, List.length_map]

/-- A batch of one pair states one status at most. -/
theorem not_conflicting_of_length (h : batch.length < 2) :
    (claimsOf batch).Pairwise fun x y => ¬ Conflict x y := by
  match batch, h with
  | [], _ => exact List.Pairwise.nil
  | [_], _ => exact List.pairwise_singleton _ _

/-- The verdict is right if its two conditions are the absence of a conflict. -/
theorem soundVerdict_iff (hne : batch ≠ [])
    (hverified : ∀ pair ∈ batch, ReturnsTrue (verifyClaim pair.1 pair.2) e s) :
    SoundVerdict batch e s ↔ ((2 ≤ batch.length ∧ ¬ Detected (claimsOf batch)) ↔
      (claimsOf batch).Pairwise fun x y => ¬ Conflict x y) := by
  rw [← consistent_iff hne hverified, verdict_iff hne hverified]
  constructor
  · rintro ⟨b, hb, hsound⟩
    rw [verdict_iff hne hverified] at hb
    rw [← hb, eq_comm, hsound]
  · intro h
    exact ⟨_, (verdict_iff hne hverified).mpr rfl, by rw [← h, eq_comm]⟩

theorem verdict_perm {other : List (Bytes × Bytes)} (hperm : other.Perm batch) (hne : batch ≠ [])
    (hverified : ∀ pair ∈ batch, ReturnsTrue (verifyClaim pair.1 pair.2) e s) :
    Verdict other e s b ↔ Verdict batch e s b := by
  have hnil : other ≠ [] := fun h => hne (List.Perm.nil_eq (h ▸ hperm)).symm
  rw [verdict_iff hne hverified, verdict_iff hnil fun q hq => hverified q (hperm.mem_iff.mp hq)]
  have hclaims : (claimsOf other).Perm (claimsOf batch) := hperm.map _
  have hsame : verifyBatchConsistency (claimPairs (claimsOf other)) =
      verifyBatchConsistency (claimPairs (claimsOf batch)) := by
    rw [Bool.eq_iff_iff, batch_consistent_iff, batch_consistent_iff, ← pairwise_compatible_iff,
      ← pairwise_compatible_iff, hclaims.length_eq, hclaims.pairwise_iff compatible_symm]
  rw [hsame]

/-- A consistent batch has batches of one pair inside, and those never pass. -/
theorem hereditary_iff (hne : batch ≠ [])
    (hverified : ∀ pair ∈ batch, ReturnsTrue (verifyClaim pair.1 pair.2) e s) :
    Hereditary batch e s ↔ batch.length = 1 ∨ Detected (claimsOf batch) := by
  have hlength : 1 ≤ batch.length := List.length_pos_iff.mpr hne
  constructor
  · intro h
    rcases Nat.eq_or_lt_of_le hlength with hone | htwo
    · exact .inl hone.symm
    refine .inr (not_not.mp fun hnone => ?_)
    obtain ⟨pair, rest, rfl⟩ := List.exists_cons_of_ne_nil hne
    have hsingle := h ((consistent_iff hne hverified).mpr ⟨htwo, hnone⟩) [pair]
      (List.singleton_sublist.mpr List.mem_cons_self) (List.cons_ne_nil _ _)
    rw [consistent_iff (List.cons_ne_nil _ _) (by simpa using hverified pair List.mem_cons_self)]
      at hsingle
    exact absurd hsingle.1 (by simp)
  · intro h hverdict
    obtain ⟨htwo, hnone⟩ := (consistent_iff hne hverified).mp hverdict
    rcases h with hone | hfound
    · exact absurd hone (by omega)
    · exact absurd hfound hnone

/-- When the verdict on a batch of verified pairs is right, and when it passes on to the batches
inside; the order of the pairs never matters. -/
theorem batch_consistency_iff (e : Env) (s : State) (batch : List (Bytes × Bytes))
    (hne : batch ≠ [])
    (hverified : ∀ pair ∈ batch, ReturnsTrue (verifyClaim pair.1 pair.2) e s) :
    (SoundVerdict batch e s ↔
      AgesClash (claimsOf batch) ∨
        (2 ≤ batch.length ∧
          ¬ (Stated (claimsOf batch) .pending ∧ Stated (claimsOf batch) .approved ∧
            ¬ Stated (claimsOf batch) .rejected) ∧
          ¬ (Stated (claimsOf batch) .rejected ∧ ¬ Stated (claimsOf batch) .pending ∧
            ¬ Stated (claimsOf batch) .approved ∧
            ∃ claim ∈ claimsOf batch, isAgeClaim claim = true))) ∧
    (∀ other b, other.Perm batch → (Verdict other e s b ↔ Verdict batch e s b)) ∧
    (Hereditary batch e s ↔ batch.length = 1 ∨ Detected (claimsOf batch)) := by
  refine ⟨?_, fun other b hperm => verdict_perm hperm hne hverified,
    hereditary_iff hne hverified⟩
  rw [soundVerdict_iff hne hverified]
  rcases Nat.lt_or_ge batch.length 2 with hshort | hlong
  · -- one pair: no conflict, and the code objects
    have hnone := not_conflicting_of_length hshort
    have hclash : ¬ AgesClash (claimsOf batch) := fun h =>
      pairwise_conflict_iff.mp hnone (.inl h)
    have htwo : ¬ 2 ≤ batch.length := Nat.not_le.mpr hshort
    tauto
  · rw [pairwise_conflict_iff, exists_statuses_iff, Detected, exists_undecided_iff]
    generalize (∃ claim ∈ claimsOf batch, isAgeClaim claim = true) = ages
    generalize Stated (claimsOf batch) .rejected = rejected
    by_cases hp : Stated (claimsOf batch) .pending
    · simp only [hp, hlong]
      grind
    · simp only [hp, hlong]
      grind

end Verdicts

/-! ## Two batches that get it wrong -/

/-- An oracle attests a pending and an approved claim. -/
def twoStatuses : List (List Address × Nat × Call) :=
  [([⟨8⟩], 1, .registerOracle ⟨20⟩), ([⟨20⟩], 2, .attest ⟨20⟩ [1] [0]),
    ([⟨20⟩], 2, .attest ⟨20⟩ [2] [1])]

theorem verified_of_any {w : World} {e : Env} {batch : List (Bytes × Bytes)}
    (h : batch.all (fun pair => (verifyClaim pair.1 pair.2 e w.state).toOption.any (·.1)) = true) :
    ∀ pair ∈ batch, ReturnsTrue (verifyClaim pair.1 pair.2) e w.state :=
  fun pair hpair => returnsTrue_of_any (List.all_eq_true.mp h pair hpair)

theorem verdict_of_map {w : World} {e : Env} {batch : List (Bytes × Bytes)} {b : Bool}
    (h : (verifyCredentialsConsistent (batch.map (·.1)) (claimsOf batch) e w.state).toOption.map
      (·.1) = some b) : Verdict batch e w.state b := by
  obtain ⟨⟨_, t⟩, hcall, rfl⟩ := Option.map_eq_some_iff.mp h
  cases hm : verifyCredentialsConsistent (batch.map (·.1)) (claimsOf batch) e w.state with
  | error err => simp [hm, Except.toOption] at hcall
  | ok r =>
      simp only [hm, Except.toOption, Option.some.injEq] at hcall
      exact ⟨t, by rw [hm, hcall]⟩

theorem Verdict.not_sound {e : Env} {s : State} {batch : List (Bytes × Bytes)} {b : Bool}
    (h : Verdict batch e s b)
    (hwrong : ¬ (b = true ↔ (claimsOf batch).Pairwise fun x y => ¬ Conflict x y)) :
    ¬ SoundVerdict batch e s := by
  rintro ⟨b', ⟨t', h'⟩, hsound⟩
  obtain ⟨t, h⟩ := h
  obtain ⟨rfl, -⟩ := Prod.mk.inj (Except.ok.inj (h.symm.trans h'))
  exact hwrong hsound

/-- One pair that verifies is not consistent; a pending and an approved claim are. -/
theorem wrong_verdicts : ∃ w, Reachable w ∧
    (∀ pair ∈ ([([1], [0]), ([2], [1])] : List (Bytes × Bytes)),
      ReturnsTrue (verifyClaim pair.1 pair.2) (signedBy [] 3) w.state) ∧
    ¬ SoundVerdict [([1], [0])] (signedBy [] 3) w.state ∧
    ¬ SoundVerdict [([1], [0]), ([2], [1])] (signedBy [] 3) w.state := by
  have hplay : (play (initialised ⟨8⟩) twoStatuses).any (fun w =>
      ([([1], [0]), ([2], [1])].all fun pair =>
        (verifyClaim pair.1 pair.2 (signedBy [] 3) w.state).toOption.any (·.1)) &&
      decide ((verifyCredentialsConsistent [[1]] [[0]] (signedBy [] 3) w.state).toOption.map (·.1) =
        some false) &&
      decide ((verifyCredentialsConsistent [[1], [2]] [[0], [1]] (signedBy [] 3)
        w.state).toOption.map (·.1) = some true)) = true := by
    decide +kernel
  obtain ⟨w, hw, hchecks⟩ := (Option.any_eq_true _ _).mp hplay
  obtain ⟨hfirst, htwo⟩ := (Bool.and_eq_true _ _).mp hchecks
  obtain ⟨hverified, hone⟩ := (Bool.and_eq_true _ _).mp hfirst
  have hsingle : Verdict [([1], [0])] (signedBy [] 3) w.state false :=
    verdict_of_map (of_decide_eq_true hone)
  have hpair : Verdict [([1], [0]), ([2], [1])] (signedBy [] 3) w.state true :=
    verdict_of_map (of_decide_eq_true htwo)
  refine ⟨w, reachable_of_play hw, verified_of_any hverified, hsingle.not_sound fun h => ?_,
    hpair.not_sound fun h => ?_⟩
  · exact absurd (h.mpr (List.pairwise_singleton _ _)) (by decide)
  · have hnone := (List.pairwise_cons.mp (h.mp rfl)).1 [1] (List.mem_singleton_self _)
    exact hnone (.statuses (x := .pending) (y := .approved) rfl rfl (by decide))

/-- Two approved claims that verify: the verdict is right. -/
theorem right_verdict : ∃ w, Reachable w ∧
    SoundVerdict [([2], [1]), ([2], [1])] (signedBy [] 3) w.state := by
  have hplay : (play (initialised ⟨8⟩) twoStatuses).any (fun w =>
      [([2], [1]), ([2], [1])].all fun pair =>
        (verifyClaim pair.1 pair.2 (signedBy [] 3) w.state).toOption.any (·.1)) = true := by
    decide +kernel
  obtain ⟨w, hw, hchecks⟩ := (Option.any_eq_true _ _).mp hplay
  refine ⟨w, reachable_of_play hw, (batch_consistency_iff (signedBy [] 3) w.state
    [([2], [1]), ([2], [1])] (List.cons_ne_nil _ _) (verified_of_any hchecks)).1.mpr (.inr ?_)⟩
  unfold Stated
  decide

end Heirloom.Verifier
