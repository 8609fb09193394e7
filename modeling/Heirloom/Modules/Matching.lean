import Mathlib.Data.List.AList
import Heirloom.Lib.ExchangeSort
import Heirloom.Modules.Host

/-!
# Attribute-based matching of attestors

Attestors have profiles; an index lists those that are active. A request is matched
against the attestors of the index: each is scored, those with a score are sorted and
the best are returned.

Results:
1. `matching_best`: in every run in which no active attestor is given an inactive
   profile, the index lists exactly the active attestors, each once, and a request gets
   the best of them; a step that gives an active attestor an inactive profile breaks
   the index.
2. `matching_stale`: an attestor that is listed and not active, and then listed twice.
-/

namespace Heirloom.Modules.Matching

open Transaction TypedStore Runs ExchangeSort

/-! ## Constants and records -/

def maxAttributesPerAttestor : Nat := 16
def defaultAttributeWeight : Nat := 100
def fuzzyMatchThreshold : Nat := 2
def exactMatchBonus : Nat := 1000
def prefixMatchBonus : Nat := 500
def fuzzyMatchBonus : Nat := 250

structure Attribute where
  key : Bytes
  value : Bytes
deriving DecidableEq

structure AttestorProfile where
  address : Address
  attributes : List Attribute
  /-- At most 100. -/
  reputationScore : Nat
  active : Bool
deriving DecidableEq

structure AttestorMatch where
  address : Address
  score : Nat
  reputation : Nat
deriving DecidableEq

structure MatchRequest where
  attributes : List Attribute
  /-- The weights of attributes, by their key. -/
  weights : AList fun _ : Bytes => Nat
  activeOnly : Bool
  /-- The most entries to return; zero is no limit. -/
  limit : Nat

/-! ## Storage -/

inductive AttributeKey
  | attestorProfile (attestor : Address)
  | activeAttestorIndex
deriving DecidableEq

/-- The type of the value under a key. -/
@[reducible] def AttributeKey.Value : AttributeKey → Type
  | .attestorProfile _ => AttestorProfile
  | .activeAttestorIndex => List Address

abbrev State := Store AttributeKey.Value

abbrev storageGet (k : AttributeKey) : Routine AttributeKey.Value (Option k.Value) := load k

abbrev storageSet (k : AttributeKey) (v : k.Value) : Routine AttributeKey.Value Unit := save k v

/-! ## Scores -/

/-- `u32::saturating_add`. -/
def saturatingAdd32 (a b : Nat) : Nat := min (a + b) u32Max

/-- `u32::saturating_mul`. -/
def saturatingMul32 (a b : Nat) : Nat := min (a * b) u32Max

def bytesEqual (a b : Bytes) : Bool :=
  decide (a.length = b.length) && (List.range a.length).all fun i => a[i]? = b[i]?

def exactMatch (a b : Bytes) : Bool := bytesEqual a b

/-- `needle` is a prefix of `haystack`. -/
def prefixMatch (haystack needle : Bytes) : Bool :=
  decide (needle.length ≤ haystack.length) &&
    (List.range needle.length).all fun i => haystack[i]? = needle[i]?

/-- The lengths and the bytes of the common length differ in two places at most. -/
def fuzzyMatch (a b : Bytes) : Bool :=
  decide (a.length - b.length + (b.length - a.length) ≤ fuzzyMatchThreshold) &&
    decide ((List.range (min a.length b.length)).countP (fun i => a[i]? ≠ b[i]?) ≤
      fuzzyMatchThreshold)

def scoreAttributeMatch (attestorValue requestedValue : Bytes) (weight : Nat) : Nat :=
  let baseScore :=
    if exactMatch attestorValue requestedValue then exactMatchBonus
    else if prefixMatch attestorValue requestedValue || prefixMatch requestedValue attestorValue then
      prefixMatchBonus
    else if fuzzyMatch attestorValue requestedValue then fuzzyMatchBonus
    else 0
  saturatingMul32 baseScore weight / 100

/-- The score of a profile: that of every requested attribute against every attribute of
the same key, and the reputation. -/
def matchScore (request : MatchRequest) (profile : AttestorProfile) : Nat :=
  let attributes := request.attributes.foldl (fun score requested =>
    let weight := (request.weights.lookup requested.key).getD defaultAttributeWeight
    profile.attributes.foldl (fun score own =>
      if exactMatch own.key requested.key then
        saturatingAdd32 score (scoreAttributeMatch own.value requested.value weight)
      else score) score) 0
  saturatingAdd32 attributes (saturatingMul32 profile.reputationScore 10)

/-! ## Functions -/

/-- Stores a profile, and lists the attestor if the profile is active and the attestor is
not listed. -/
def setAttestorProfile (attestor : Address) (attributes : List Attribute)
    (reputationScore : Nat) (active : Bool) : Routine AttributeKey.Value Bool := do
  if 100 < reputationScore ∨ maxAttributesPerAttestor < attributes.length then pure false
  else do
    storageSet (.attestorProfile attestor) ⟨attestor, attributes, reputationScore, active⟩
    Tx.onlyIf (active = true) do
      let activeList : Option (List Address) ← storageGet .activeAttestorIndex
      Tx.onlyIf (attestor ∉ activeList.getD [])
        (storageSet .activeAttestorIndex (activeList.getD [] ++ [attestor]))
    pure true

def activateAttestor (attestor : Address) : Routine AttributeKey.Value Bool := do
  let found : Option AttestorProfile ← storageGet (.attestorProfile attestor)
  Tx.ifSomeElse found
    (fun profile => do
      if profile.active = true then pure false
      else do
        storageSet (.attestorProfile attestor) { profile with active := true }
        let activeList : Option (List Address) ← storageGet .activeAttestorIndex
        storageSet .activeAttestorIndex (activeList.getD [] ++ [attestor])
        pure true)
    (pure false)

def deactivateAttestor (attestor : Address) : Routine AttributeKey.Value Bool := do
  let found : Option AttestorProfile ← storageGet (.attestorProfile attestor)
  Tx.ifSomeElse found
    (fun profile => do
      if profile.active = false then pure false
      else do
        storageSet (.attestorProfile attestor) { profile with active := false }
        let activeList : Option (List Address) ← storageGet .activeAttestorIndex
        Tx.ifSome activeList fun activeList =>
          storageSet .activeAttestorIndex (activeList.filter (· ≠ attestor))
        pure true)
    (pure false)

/-- The matches with the attestor, if it has a profile and a score. -/
def addMatch (request : MatchRequest) (found : List AttestorMatch) (attestor : Address) :
    Routine AttributeKey.Value (List AttestorMatch) := do
  let profile : Option AttestorProfile ← storageGet (.attestorProfile attestor)
  Tx.ifSomeElse profile
    (fun profile =>
      let score := matchScore request profile
      if 0 < score then pure (found ++ [⟨attestor, score, profile.reputationScore⟩])
      else pure found)
    (pure found)

def matchAttestorsByAttributes (request : MatchRequest) :
    Routine AttributeKey.Value (List AttestorMatch) := do
  let activeList : Option (List Address) ← storageGet .activeAttestorIndex
  let attestorList := if request.activeOnly = true then activeList.getD [] else []
  let found ← Tx.foldEach attestorList [] (addMatch request)
  let sorted := sort AttestorMatch.score found
  if 0 < request.limit ∧ request.limit < sorted.length then pure (sorted.take request.limit)
  else pure sorted

/-- The calls that write, by anyone: the module has no entry points of its own. -/
inductive Call
  | setAttestorProfile (attestor : Address) (attributes : List Attribute)
      (reputationScore : Nat) (active : Bool)
  | activateAttestor (attestor : Address)
  | deactivateAttestor (attestor : Address)

def exec : Call → Routine AttributeKey.Value Unit
  | .setAttestorProfile attestor attributes reputationScore active => do
      let _ ← setAttestorProfile attestor attributes reputationScore active
  | .activateAttestor attestor => do let _ ← activateAttestor attestor
  | .deactivateAttestor attestor => do let _ ← deactivateAttestor attestor

/-- A call that succeeds; one that fails changes nothing. -/
def Step (s : State) (k : Env × Call) (t : State) : Prop := exec k.2 k.1 s = .ok ((), t)

/-! ## The index -/

def indexOf (s : State) : List Address := (s.get .activeAttestorIndex).getD []

def profileOf (s : State) (a : Address) : Option AttestorProfile := s.get (.attestorProfile a)

/-- The attestor has a profile that is active. -/
def Active (s : State) (a : Address) : Prop := ∃ p, profileOf s a = some p ∧ p.active = true

/-- The index lists the active attestors, each once. -/
structure IndexExact (s : State) : Prop where
  nodup : (indexOf s).Nodup
  mem_iff : ∀ a, a ∈ indexOf s ↔ Active s a

/-- No active attestor is given an inactive profile. -/
def Safe (s : State) (k : Env × Call) : Prop :=
  ∀ a attributes reputation, k.2 = .setAttestorProfile a attributes reputation false →
    reputation ≤ 100 → attributes.length ≤ maxAttributesPerAttestor → ¬ Active s a

section Reads

variable {s : State} {k : AttributeKey} {v : k.Value} {a b : Address} {p : AttestorProfile}
  {index : List Address}

@[simp] theorem indexOf_put_self : indexOf (s.put .activeAttestorIndex index) = index := by
  rw [indexOf, Store.get_put_self, Option.getD_some]

@[simp] theorem indexOf_put_profile : indexOf (s.put (.attestorProfile a) p) = indexOf s := by
  rw [indexOf, indexOf, Store.get_put_of_ne (by simp)]

@[simp] theorem profileOf_put_self :
    profileOf (s.put (.attestorProfile a) p) = Function.update (profileOf s) a (some p) := by
  funext b
  by_cases h : b = a
  · subst h
    simp [profileOf]
  · simp [profileOf, h]

@[simp] theorem profileOf_put_index :
    profileOf (s.put .activeAttestorIndex index) = profileOf s :=
  funext fun _ => Store.get_put_of_ne (by simp)

end Reads

section Steps

variable {s t : State} {e : Env} {a b : Address} {p : AttestorProfile} {index : List Address}

/-- `t` is `s` with a new profile of `a` and a new index. -/
structure Replaced (s : State) (a : Address) (p : AttestorProfile) (index : List Address)
    (t : State) : Prop where
  profile_eq : profileOf t = Function.update (profileOf s) a (some p)
  index_eq : indexOf t = index

theorem Replaced.active_iff (h : Replaced s a p index t) :
    Active t b ↔ if b = a then p.active = true else Active s b := by
  unfold Active
  rw [h.profile_eq]
  by_cases hb : b = a
  · subst hb
    simp
  · simp [hb]

/-- What a call does to the profiles and the index. -/
inductive Effect (s t : State) : Call → Prop
  | setActive {a : Address} {attributes : List Attribute} {reputation : Nat}
      (h : Replaced s a ⟨a, attributes, reputation, true⟩
        (if a ∈ indexOf s then indexOf s else indexOf s ++ [a]) t) :
      Effect s t (.setAttestorProfile a attributes reputation true)
  | setInactive {a : Address} {attributes : List Attribute} {reputation : Nat}
      (haccepted : reputation ≤ 100 ∧ attributes.length ≤ maxAttributesPerAttestor)
      (h : Replaced s a ⟨a, attributes, reputation, false⟩ (indexOf s) t) :
      Effect s t (.setAttestorProfile a attributes reputation false)
  | refused {a : Address} {attributes : List Attribute} {reputation : Nat} {active : Bool}
      (hrefused : ¬ (reputation ≤ 100 ∧ attributes.length ≤ maxAttributesPerAttestor))
      (h : t = s) : Effect s t (.setAttestorProfile a attributes reputation active)
  | activated {a : Address} {p : AttestorProfile} (hfound : profileOf s a = some p)
      (hinactive : p.active = false)
      (h : Replaced s a { p with active := true } (indexOf s ++ [a]) t) :
      Effect s t (.activateAttestor a)
  | notActivated {a : Address} (h : t = s) : Effect s t (.activateAttestor a)
  | deactivated {a : Address} {p : AttestorProfile}
      (h : Replaced s a { p with active := false } ((indexOf s).filter (· ≠ a)) t) :
      Effect s t (.deactivateAttestor a)
  | notDeactivated {a : Address} (h : t = s) : Effect s t (.deactivateAttestor a)

theorem setAttestorProfile_wp {attributes : List Attribute} {reputation : Nat} {active : Bool} :
    wp (setAttestorProfile a attributes reputation active)
      (fun _ t => Effect s t (.setAttestorProfile a attributes reputation active)) e s := by
  simp only [setAttestorProfile, Tx.wp_bind, Tx.wp_pure, Tx.wp_ite, Tx.wp_onlyIf, wp_load, wp_save]
  constructor
  · exact fun hrefused => .refused (by omega) rfl
  · intro haccepted
    have hindex : (Store.get (s.put (.attestorProfile a) ⟨a, attributes, reputation, active⟩)
        .activeAttestorIndex).getD [] = indexOf s := indexOf_put_profile
    rw [hindex]
    constructor
    · rintro rfl
      constructor
      · intro hnew
        exact .setActive ⟨by simp, by simp [hnew]⟩
      · intro hold
        exact .setActive ⟨by simp, by simp [not_not.mp hold]⟩
    · intro hinactive
      obtain rfl : active = false := by simpa using hinactive
      exact .setInactive (by omega) ⟨by simp, by simp⟩

theorem activateAttestor_wp :
    wp (activateAttestor a) (fun _ t => Effect s t (.activateAttestor a)) e s := by
  simp only [activateAttestor, Tx.wp_bind, Tx.wp_pure, Tx.wp_ite, Tx.wp_ifSomeElse, wp_load,
    wp_save]
  constructor
  · intro p hfound
    constructor
    · exact fun _ => .notActivated rfl
    · intro hinactive
      have hindex : (Store.get (s.put (.attestorProfile a) { p with active := true })
        .activeAttestorIndex).getD [] = indexOf s := indexOf_put_profile
      rw [hindex]
      exact .activated hfound (by simpa using hinactive) ⟨by simp, by simp⟩
  · exact fun _ => .notActivated rfl

theorem deactivateAttestor_wp :
    wp (deactivateAttestor a) (fun _ t => Effect s t (.deactivateAttestor a)) e s := by
  simp only [deactivateAttestor, Tx.wp_bind, Tx.wp_pure, Tx.wp_ite, Tx.wp_ifSomeElse,
    Tx.wp_ifSome, wp_load, wp_save]
  constructor
  · intro p hfound
    refine ⟨fun _ => .notDeactivated rfl, fun _ => ?_⟩
    rw [Store.get_put_of_ne (by simp)]
    constructor
    · intro activeList hactive
      have hindex : indexOf s = activeList := by rw [indexOf, hactive, Option.getD_some]
      exact .deactivated (p := p) ⟨by simp, by simp [hindex]⟩
    · intro hnone
      have hindex : indexOf s = [] := by rw [indexOf, hnone, Option.getD_none]
      exact .deactivated (p := p) ⟨by simp, by simp [hindex]⟩
  · exact fun _ => .notDeactivated rfl

theorem step_effect {k : Env × Call} (h : Step s k t) : Effect s t k.2 := by
  obtain ⟨e, call⟩ := k
  have hwp : wp (exec call) (fun _ t => Effect s t call) e s := by
    cases call with
    | setAttestorProfile a attributes reputation active =>
        simp only [exec, Tx.wp_bind, Tx.wp_pure]
        exact setAttestorProfile_wp
    | activateAttestor a =>
        simp only [exec, Tx.wp_bind, Tx.wp_pure]
        exact activateAttestor_wp
    | deactivateAttestor a =>
        simp only [exec, Tx.wp_bind, Tx.wp_pure]
        exact deactivateAttestor_wp
  exact hwp () t h

/-- Listing an attestor that is not listed, and giving it an active profile. -/
theorem Replaced.exact_of_listed (hs : IndexExact s) (h : Replaced s a p (indexOf s ++ [a]) t)
    (hactive : p.active = true) (hnew : a ∉ indexOf s) : IndexExact t := by
  constructor
  · rw [h.index_eq]
    have hne : ∀ b ∈ indexOf s, ∀ c ∈ [a], b ≠ c := by
      rintro b hb c hc rfl
      exact hnew (List.mem_singleton.mp hc ▸ hb)
    exact List.nodup_append.mpr ⟨hs.nodup, List.nodup_singleton a, hne⟩
  · intro b
    rw [h.index_eq, h.active_iff, List.mem_append, List.mem_singleton, hs.mem_iff]
    by_cases hb : b = a
    · simp [hb, hactive]
    · simp [hb]

/-- Changing the profile of an attestor that stays listed. -/
theorem Replaced.exact_of_same (hs : IndexExact s) (h : Replaced s a p (indexOf s) t)
    (hactive : p.active = true ↔ Active s a) : IndexExact t := by
  constructor
  · rw [h.index_eq]
    exact hs.nodup
  · intro b
    rw [h.index_eq, h.active_iff, hs.mem_iff]
    by_cases hb : b = a
    · subst hb
      simp [hactive]
    · simp [hb]

theorem Replaced.exact_of_dropped (hs : IndexExact s)
    (h : Replaced s a p ((indexOf s).filter (· ≠ a)) t) (hinactive : p.active = false) :
    IndexExact t := by
  constructor
  · rw [h.index_eq]
    exact hs.nodup.filter _
  · intro b
    rw [h.index_eq, h.active_iff, List.mem_filter, hs.mem_iff]
    by_cases hb : b = a
    · simp [hb, hinactive]
    · simp [hb]

/-- The steps that keep the index exact. -/
theorem exact_iff_safe {k : Env × Call} (hs : IndexExact s) (h : Step s k t) :
    IndexExact t ↔ Safe s k := by
  obtain ⟨e, call⟩ := k
  cases step_effect h with
  | @setActive a attributes reputation hreplaced =>
      refine iff_of_true ?_ fun _ _ _ heq => by cases heq
      by_cases hlisted : a ∈ indexOf s
      · rw [if_pos hlisted] at hreplaced
        exact hreplaced.exact_of_same hs (by simpa using (hs.mem_iff a).mp hlisted)
      · rw [if_neg hlisted] at hreplaced
        exact hreplaced.exact_of_listed hs rfl hlisted
  | @setInactive a attributes reputation haccepted hreplaced =>
      constructor
      · intro ht a' attributes' reputation' heq _ _ hactive
        cases heq
        have hlisted : a ∈ indexOf t := hreplaced.index_eq ▸ (hs.mem_iff a).mpr hactive
        have hgone := hreplaced.active_iff.mp ((ht.mem_iff a).mp hlisted)
        simp at hgone
      · intro hsafe
        have hinactive := hsafe a attributes reputation rfl haccepted.1 haccepted.2
        exact hreplaced.exact_of_same hs (by simpa using hinactive)
  | refused hrefused heq =>
      subst heq
      refine iff_of_true hs fun a attributes reputation heq hle hlength => ?_
      cases heq
      exact absurd ⟨hle, hlength⟩ hrefused
  | @activated a p hfound hinactive hreplaced =>
      refine iff_of_true ?_ fun _ _ _ heq => by cases heq
      refine hreplaced.exact_of_listed hs rfl fun hlisted => ?_
      obtain ⟨p', hfound', hactive⟩ := (hs.mem_iff a).mp hlisted
      obtain rfl := Option.some.inj (hfound.symm.trans hfound')
      exact Bool.false_ne_true (hinactive.symm.trans hactive)
  | notActivated heq =>
      subst heq
      exact iff_of_true hs fun _ _ _ heq => by cases heq
  | deactivated hreplaced =>
      exact iff_of_true (hreplaced.exact_of_dropped hs rfl) fun _ _ _ heq => by cases heq
  | notDeactivated heq =>
      subst heq
      exact iff_of_true hs fun _ _ _ heq => by cases heq

/-! ## What a request gets -/

/-- The match of the request with an attestor, if there is one. -/
def matchOf (s : State) (request : MatchRequest) (a : Address) : Option AttestorMatch :=
  (profileOf s a).bind fun p =>
    if 0 < matchScore request p then some ⟨a, matchScore request p, p.reputationScore⟩ else none

theorem matchOf_eq_some {request : MatchRequest} {m : AttestorMatch}
    (h : matchOf s request a = some m) : m.address = a ∧ ∃ p, profileOf s a = some p ∧
      m.score = matchScore request p ∧ m.reputation = p.reputationScore := by
  obtain ⟨p, hp, hm⟩ := Option.bind_eq_some_iff.mp h
  split at hm
  · obtain rfl := Option.some.inj hm
    exact ⟨rfl, p, hp, rfl, rfl⟩
  · cases hm

theorem matchOf_of_scored {request : MatchRequest} (hp : profileOf s a = some p)
    (hpos : 0 < matchScore request p) :
    matchOf s request a = some ⟨a, matchScore request p, p.reputationScore⟩ := by
  simp [matchOf, hp, hpos]

theorem addMatch_ok {request : MatchRequest} {found : List AttestorMatch} :
    addMatch request found a e s = .ok (found ++ (matchOf s request a).toList, s) := by
  rw [addMatch, Tx.bind_of_ok (ok_load.mpr ⟨rfl, rfl⟩)]
  unfold matchOf profileOf
  cases hp : s.get (.attestorProfile a) with
  | none => simp [Tx.ifSomeElse, pure]
  | some p =>
      show (if 0 < matchScore request p then _ else _ : Routine _ _) e s = _
      by_cases hpos : 0 < matchScore request p <;> simp [hpos, pure]

theorem foldMatches_ok {request : MatchRequest} {found : List AttestorMatch}
    {attestors : List Address} :
    Tx.foldEach attestors found (addMatch request) e s =
      .ok (found ++ attestors.filterMap (matchOf s request), s) := by
  induction attestors generalizing found with
  | nil => simp [Tx.foldEach, pure]
  | cons a attestors ih =>
      rw [Tx.foldEach, Tx.bind_of_ok addMatch_ok, ih, List.filterMap_cons]
      cases matchOf s request a <;> simp

/-- The matches with the listed attestors, best first. -/
def ranking (s : State) (request : MatchRequest) : List AttestorMatch :=
  sort AttestorMatch.score ((indexOf s).filterMap (matchOf s request))

theorem matchAttestorsByAttributes_ok {request : MatchRequest}
    (hactive : request.activeOnly = true) :
    matchAttestorsByAttributes request e s =
      .ok (if 0 < request.limit ∧ request.limit < (ranking s request).length then
        (ranking s request).take request.limit else ranking s request, s) := by
  rw [matchAttestorsByAttributes, Tx.bind_of_ok (ok_load.mpr ⟨rfl, rfl⟩)]
  simp only [hactive, if_true]
  rw [Tx.bind_of_ok foldMatches_ok]
  show (if 0 < request.limit ∧ request.limit < (ranking s request).length then _ else _ :
    Routine _ _) e s = _
  split <;> rfl

/-- `ms` are the best active attestors for the request. -/
structure Best (s : State) (request : MatchRequest) (ms : List AttestorMatch) : Prop where
  limited : 0 < request.limit → ms.length ≤ request.limit
  unlimited : request.limit = 0 → ∀ a p, profileOf s a = some p → p.active = true →
    0 < matchScore request p → a ∈ ms.map (·.address)
  distinct : (ms.map (·.address)).Nodup
  active : ∀ m ∈ ms, ∃ p, profileOf s m.address = some p ∧ p.active = true ∧
    m.score = matchScore request p ∧ m.reputation = p.reputationScore
  sorted : ms.Pairwise fun m m' => m'.score ≤ m.score
  best : ∀ a p, profileOf s a = some p → p.active = true → a ∉ ms.map (·.address) →
    ∀ m ∈ ms, matchScore request p ≤ m.score

theorem mem_ranking {request : MatchRequest} {m : AttestorMatch} :
    m ∈ ranking s request ↔ ∃ a ∈ indexOf s, matchOf s request a = some m :=
  sort_perm.mem_iff.trans List.mem_filterMap

theorem mem_ranking_of_scored {request : MatchRequest} (hs : IndexExact s)
    (hp : profileOf s a = some p) (hactive : p.active = true) (hpos : 0 < matchScore request p) :
    ⟨a, matchScore request p, p.reputationScore⟩ ∈ ranking s request :=
  mem_ranking.mpr ⟨a, (hs.mem_iff a).mpr ⟨p, hp, hactive⟩, matchOf_of_scored hp hpos⟩

theorem ranking_nodup {request : MatchRequest} (hs : IndexExact s) :
    ((ranking s request).map (·.address)).Nodup := by
  refine ((sort_perm.map _).nodup_iff).mpr ?_
  refine List.Nodup.sublist ?_ hs.nodup
  have haddress : ∀ as : List Address,
      ((as.filterMap (matchOf s request)).map (·.address)).Sublist as := by
    intro as
    induction as with
    | nil => exact List.Sublist.refl _
    | cons a as ih =>
        rw [List.filterMap_cons]
        cases hm : matchOf s request a with
        | none => exact ih.cons a
        | some m =>
            obtain ⟨rfl, -⟩ := matchOf_eq_some hm
            exact ih.cons_cons m.address
  exact haddress (indexOf s)

/-- A sublist of the ranking that leaves out only what scores no higher is the best. -/
theorem best_of_take (request : MatchRequest) (n : Nat) (hs : IndexExact s)
    (hlimit : 0 < request.limit → ((ranking s request).take n).length ≤ request.limit)
    (hall : request.limit = 0 → (ranking s request).length ≤ n) :
    Best s request ((ranking s request).take n) := by
  have hsub : ((ranking s request).take n).Sublist (ranking s request) := List.take_sublist _ _
  refine ⟨hlimit, ?_, (ranking_nodup hs).sublist (hsub.map _), ?_, sort_descending.sublist hsub, ?_⟩
  · intro hzero a p hp hactive hpos
    rw [List.take_of_length_le (hall hzero)]
    exact List.mem_map_of_mem (mem_ranking_of_scored hs hp hactive hpos)
  · intro m hm
    obtain ⟨a, ha, hmatch⟩ := mem_ranking.mp (hsub.subset hm)
    obtain ⟨p, hp, hactive⟩ := (hs.mem_iff a).mp ha
    obtain ⟨rfl, p', hp', hscore, hreputation⟩ := matchOf_eq_some hmatch
    obtain rfl := Option.some.inj (hp.symm.trans hp')
    exact ⟨p, hp, hactive, hscore, hreputation⟩
  · intro a p hp hactive hout m hm
    by_cases hpos : 0 < matchScore request p
    · have hmem := mem_ranking_of_scored hs hp hactive hpos
      exact score_le_of_mem_take sort_descending hmem
        (fun htaken => hout (List.mem_map_of_mem htaken)) hm
    · exact Nat.le_trans (Nat.le_of_not_lt hpos) (Nat.zero_le _)

/-- In a run whose steps are safe the index is exact and a request gets the best active
attestors; a step keeps the index exact exactly if it is safe. -/
theorem matching_best (ks : List (Env × Call)) (s : State)
    (hrun : Run (Guarded Step Safe) .empty ks s) :
    IndexExact s ∧
    (∀ request e, request.activeOnly = true →
      ∃ ms, matchAttestorsByAttributes request e s = .ok (ms, s) ∧ Best s request ms) ∧
    ∀ k t, Step s k t → (IndexExact t ↔ Safe s k) := by
  have hexact : IndexExact s := by
    refine hrun.invariant ⟨List.nodup_nil, fun a => iff_of_false (by simp [indexOf]) ?_⟩
      fun _ _ _ ht hk => (exact_iff_safe ht hk.1).mpr hk.2
    rintro ⟨p, hp, -⟩
    cases hp
  refine ⟨hexact, fun request e hactive => ⟨_, matchAttestorsByAttributes_ok hactive, ?_⟩,
    fun k t => exact_iff_safe hexact⟩
  split
  · next hlimit =>
    exact best_of_take request _ hexact (fun _ => List.length_take_le _ _)
      fun hzero => absurd hlimit.1 (by omega)
  · next hshort =>
    have hle : 0 < request.limit → (ranking s request).length ≤ request.limit := by omega
    have hbest := best_of_take request (ranking s request).length hexact
      (by simpa using hle) (fun _ => Nat.le_refl _)
    rwa [List.take_length] at hbest

end Steps

/-! ## Profiles of one attestor -/

/-- A call at time 3. -/
def signed (call : Call) : Env × Call :=
  (⟨3, fun _ => true, ⟨.empty, ⟨fun _ _ => 0, []⟩⟩⟩, call)

/-- Attestor 1 with an active profile that has no attributes and reputation 50. -/
def activeState : State :=
  (Store.put .empty (.attestorProfile ⟨1⟩) ⟨⟨1⟩, [], 50, true⟩).put .activeAttestorIndex [⟨1⟩]

/-- The profile has been replaced by an inactive one. -/
def inactiveState : State := activeState.put (.attestorProfile ⟨1⟩) ⟨⟨1⟩, [], 50, false⟩

/-- The attestor has been activated again. -/
def reactivatedState : State :=
  (inactiveState.put (.attestorProfile ⟨1⟩) ⟨⟨1⟩, [], 50, true⟩).put .activeAttestorIndex
    [⟨1⟩, ⟨1⟩]

/-- A request for any active attestor. -/
def anyActive : MatchRequest := ⟨[], ∅, true, 0⟩

theorem step_active : Step .empty (signed (.setAttestorProfile ⟨1⟩ [] 50 true)) activeState := rfl

theorem matching_best_run :
    ∃ ms, matchAttestorsByAttributes anyActive (signed (.activateAttestor ⟨1⟩)).1 activeState =
      .ok (ms, activeState) ∧ Best activeState anyActive ms := by
  have hsafe : Safe .empty (signed (.setAttestorProfile ⟨1⟩ [] 50 true)) :=
    fun _ _ _ heq => by cases heq
  have hrun : Run (Guarded Step Safe) .empty [signed (.setAttestorProfile ⟨1⟩ [] 50 true)]
      activeState := .next .start ⟨step_active, hsafe⟩
  exact (matching_best _ _ hrun).2.1 anyActive _ rfl

/-- An attestor whose active profile is replaced by an inactive one stays in the index and
is matched. When it is activated again it is listed, and matched, twice. -/
theorem matching_stale :
    (Run Step .empty [signed (.setAttestorProfile ⟨1⟩ [] 50 false),
        signed (.setAttestorProfile ⟨1⟩ [] 50 true)] inactiveState ∧
      indexOf inactiveState = [⟨1⟩] ∧ ¬ Active inactiveState ⟨1⟩ ∧
      ∀ e, matchAttestorsByAttributes anyActive e inactiveState =
        .ok ([⟨⟨1⟩, 500, 50⟩], inactiveState)) ∧
    Run Step .empty [signed (.activateAttestor ⟨1⟩),
        signed (.setAttestorProfile ⟨1⟩ [] 50 false),
        signed (.setAttestorProfile ⟨1⟩ [] 50 true)] reactivatedState ∧
      indexOf reactivatedState = [⟨1⟩, ⟨1⟩] ∧
      ∀ e, matchAttestorsByAttributes anyActive e reactivatedState =
        .ok ([⟨⟨1⟩, 500, 50⟩, ⟨⟨1⟩, 500, 50⟩], reactivatedState) := by
  have hinactive : Step activeState (signed (.setAttestorProfile ⟨1⟩ [] 50 false)) inactiveState :=
    rfl
  have hagain : Step inactiveState (signed (.activateAttestor ⟨1⟩)) reactivatedState := rfl
  have hrun : Run Step .empty [signed (.setAttestorProfile ⟨1⟩ [] 50 false),
      signed (.setAttestorProfile ⟨1⟩ [] 50 true)] inactiveState :=
    .next (.next .start step_active) hinactive
  have hranking : ranking inactiveState anyActive = [⟨⟨1⟩, 500, 50⟩] := by decide +kernel
  have hranking' : ranking reactivatedState anyActive =
    [⟨⟨1⟩, 500, 50⟩, ⟨⟨1⟩, 500, 50⟩] := by decide +kernel
  refine ⟨⟨hrun, rfl, ?_, fun e => ?_⟩, hrun.next hagain, rfl, fun e => ?_⟩
  · rintro ⟨p, hp, hactive⟩
    cases hp
    cases hactive
  · rw [matchAttestorsByAttributes_ok rfl, hranking]
    rfl
  · rw [matchAttestorsByAttributes_ok rfl, hranking']
    rfl

end Heirloom.Modules.Matching
