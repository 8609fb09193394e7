import Heirloom.Modules.Host
import Heirloom.Lib.BubbleSort
import Mathlib.Tactic

/-!
# Rules for the composition of a slice

The admin registers rules, the owners of vaults list the numbers of those that a slice has to
meet, and anybody can have the data of a slice checked against them. A rule is met by data that
starts with its bytes. The list may hold a number several times, and numbers of rules that are
disabled or do not exist.

Results:
1. `rules_numbered`: in every run each rule is stored under its own number.
2. `validation_plain`: the outcomes are those of the enabled rules of the list, by priority and in
   the order of the list within one, the conflicts are the pairs of one priority with different
   outcomes, and the slice is valid exactly if it meets every enabled rule, in whatever order they
   are listed.
-/

namespace Heirloom.Modules.CompositionRules

open Transaction TypedStore Runs

/-! ## Storage -/

structure CompositionRule where
  ruleId : Nat
  ruleBytes : Bytes
  /-- A lower value is a higher priority. -/
  priority : Nat
  tag : Nat
  enabled : Bool
  updatedAt : Nat
deriving DecidableEq

structure RuleOutcome where
  ruleId : Nat
  priority : Nat
  passed : Bool
deriving DecidableEq

structure ValidationResult where
  sliceId : Nat
  overallValid : Bool
  outcomes : List RuleOutcome
  /-- The numbers of the rules in conflict, two for each pair. -/
  conflicts : List Nat
  validatedAt : Nat
deriving DecidableEq

inductive RulesEngineKey
  | rule (ruleId : Nat)
  | ruleCount
  | sliceRules (sliceId : Nat)
deriving DecidableEq

/-- The type of the value under a key. -/
@[reducible] def RulesEngineKey.Value : RulesEngineKey → Type
  | .rule _ => CompositionRule
  | .ruleCount => Nat
  | .sliceRules _ => List Nat

abbrev State := Store RulesEngineKey.Value

abbrev storageGet (k : RulesEngineKey) : Routine RulesEngineKey.Value (Option k.Value) := load k

abbrev storageSet (k : RulesEngineKey) (v : k.Value) : Routine RulesEngineKey.Value Unit := save k v

/-! ## Functions -/

def registerCompositionRule (ruleBytes : Bytes) (priority tag : Nat) :
    Routine RulesEngineKey.Value Nat := do
  let count : Option Nat ← storageGet .ruleCount
  let ruleId := count.getD 0
  let now ← ask (·.timestamp)
  storageSet (.rule ruleId) ⟨ruleId, ruleBytes, priority, tag, true, now⟩
  storageSet .ruleCount (saturatingAdd64 ruleId 1)
  pure ruleId

def setRuleEnabled (ruleId : Nat) (enabled : Bool) : Routine RulesEngineKey.Value Unit := do
  let found : Option CompositionRule ← storageGet (.rule ruleId)
  let rule ← fromSome found (.error .ruleNotFound)
  let now ← ask (·.timestamp)
  storageSet (.rule ruleId) { rule with enabled := enabled, updatedAt := now }

def setSliceRules (sliceId : Nat) (ruleIds : List Nat) : Routine RulesEngineKey.Value Unit :=
  storageSet (.sliceRules sliceId) ruleIds

def getSliceRules (s : State) (sliceId : Nat) : List Nat := (s.get (.sliceRules sliceId)).getD []

def getRule (s : State) (ruleId : Nat) : Option CompositionRule := s.get (.rule ruleId)

/-- The priority that the sort compares; `u32::MAX` for a number without a rule. -/
def rulePriority (s : State) (ruleId : Nat) : Nat :=
  ((getRule s ruleId).map (·.priority)).getD u32Max

/-- The comparison byte by byte ends with the first difference. -/
def evaluateRule (sliceData ruleBytes : Bytes) : Bool :=
  if ruleBytes.length = 0 then true
  else if sliceData.length < ruleBytes.length then false
  else (List.range ruleBytes.length).all fun i => sliceData[i]? = ruleBytes[i]?

/-- The outcomes, and whether all rules passed. -/
def evaluateRules (s : State) (sliceData : Bytes) : List Nat → List RuleOutcome × Bool
  | [] => ([], true)
  | ruleId :: ids =>
      let (outcomes, valid) := evaluateRules s sliceData ids
      match getRule s ruleId with
      | none => (outcomes, valid)
      | some rule =>
          if rule.enabled then
            let passed := evaluateRule sliceData rule.ruleBytes
            (⟨ruleId, rule.priority, passed⟩ :: outcomes, passed && valid)
          else (outcomes, valid)

def RuleOutcome.Conflicts (a b : RuleOutcome) : Prop :=
  a.priority = b.priority ∧ a.passed ≠ b.passed

instance : DecidableRel RuleOutcome.Conflicts := fun a b =>
  inferInstanceAs (Decidable (a.priority = b.priority ∧ a.passed ≠ b.passed))

/-- Two loops over the positions of the outcomes. -/
def detectConflicts (outcomes : List RuleOutcome) : List Nat :=
  (List.range outcomes.length).flatMap fun i =>
    (List.range' (i + 1) (outcomes.length - (i + 1))).flatMap fun j =>
      match outcomes[i]?, outcomes[j]? with
      | some oi, some oj => if oi.Conflicts oj then [oi.ruleId, oj.ruleId] else []
      | _, _ => []

def validateSliceWithRules (sliceId : Nat) (sliceData : Bytes) :
    Routine RulesEngineKey.Value ValidationResult := do
  let sortedIds ← Tx.read fun s => BubbleSort.sort (rulePriority s) (getSliceRules s sliceId)
  let (outcomes, valid) ← Tx.read fun s => evaluateRules s sliceData sortedIds
  let conflicts := detectConflicts outcomes
  let now ← ask (·.timestamp)
  pure ⟨sliceId, valid && conflicts.isEmpty, outcomes, conflicts, now⟩

/-! ## The entry points of the contract -/

/-- The calls that change what is stored. -/
inductive Call
  | registerCompositionRule (ruleBytes : Bytes) (priority tag : Nat)
  | setRuleEnabled (ruleId : Nat) (enabled : Bool)
  | setSliceRules (vaultId sliceId : Nat) (ruleIds : List Nat)

def requireCallerAdmin (caller : Address) : Routine RulesEngineKey.Value Unit := do
  requireAuth caller
  let found ← ask fun e => e.contract.get .admin
  let admin ← fromSome found (.error .notInitialized)
  require (caller = admin) .notAdmin

def exec (caller : Address) : Call → Routine RulesEngineKey.Value Unit
  | .registerCompositionRule ruleBytes priority tag => do
      requireCallerAdmin caller
      let _ ← registerCompositionRule ruleBytes priority tag
  | .setRuleEnabled ruleId enabled => do
      requireCallerAdmin caller
      setRuleEnabled ruleId enabled
  | .setSliceRules vaultId sliceId ruleIds => do
      requireVaultOwner vaultId caller
      setSliceRules sliceId ruleIds

/-- A call with what it sees and its caller. -/
structure Event where
  env : Env
  caller : Address
  call : Call

/-- A call that succeeds; one that fails changes nothing. -/
def Step (s : State) (k : Event) (t : State) : Prop := exec k.caller k.call k.env s = .ok ((), t)

/-! ## The registry -/

/-- Every rule is stored under its number. -/
def Numbered (s : State) : Prop :=
  ∀ ruleId rule, getRule s ruleId = some rule → rule.ruleId = ruleId

section Registry

variable {e : Env} {s t : State} {caller : Address} {call : Call}

theorem ok_requireCallerAdmin {u : Unit} : requireCallerAdmin caller e s = .ok (u, t) ↔
    (e.authorized caller = true ∧ e.contract.get .admin = some caller) ∧ s = t := by
  simp only [requireCallerAdmin, Tx.ok_bind, ok_requireAuth, Tx.ok_ask, Tx.ok_fromSome, ok_require]
  constructor
  · rintro ⟨_, _, ⟨ha, rfl⟩, _, _, ⟨rfl, rfl⟩, admin, _, ⟨hadmin, rfl⟩, rfl, rfl⟩
    exact ⟨⟨ha, hadmin⟩, rfl⟩
  · rintro ⟨⟨ha, hadmin⟩, rfl⟩
    exact ⟨(), s, ⟨ha, rfl⟩, _, s, ⟨rfl, rfl⟩, caller, s, ⟨hadmin, rfl⟩, rfl, rfl⟩

theorem Numbered.put_rule {ruleId : Nat} {rule : CompositionRule} (h : Numbered s)
    (hrule : rule.ruleId = ruleId) : Numbered (s.put (.rule ruleId) rule) := by
  intro n rule' hfound
  unfold getRule at hfound
  by_cases hid : n = ruleId
  · subst hid
    rw [Store.get_put_self] at hfound
    obtain rfl := Option.some.inj hfound
    exact hrule
  · rw [Store.get_put_of_ne (by simpa using hid)] at hfound
    exact h n rule' hfound

theorem Numbered.put_of_ne {k : RulesEngineKey} {v : k.Value} (h : Numbered s)
    (hk : ∀ ruleId, .rule ruleId ≠ k) : Numbered (s.put k v) := by
  intro ruleId rule hfound
  unfold getRule at hfound
  rw [Store.get_put_of_ne (hk ruleId)] at hfound
  exact h ruleId rule hfound

theorem exec_numbered (h : Numbered s) (hcall : exec caller call e s = .ok ((), t)) :
    Numbered t := by
  cases call with
  | registerCompositionRule ruleBytes priority tag =>
      simp only [exec, registerCompositionRule, Tx.ok_bind, ok_requireCallerAdmin, ok_load,
        Tx.ok_ask, ok_save, Tx.ok_pure] at hcall
      obtain ⟨_, _, ⟨-, rfl⟩, _, _, ⟨_, _, ⟨rfl, rfl⟩, _, _, ⟨rfl, rfl⟩, _, _, rfl, _, _, rfl, -,
        rfl⟩, -, rfl⟩ := hcall
      have hrule := @Numbered.put_rule s ((s.get .ruleCount).getD 0)
        ⟨(s.get .ruleCount).getD 0, ruleBytes, priority, tag, true, e.timestamp⟩ h rfl
      exact hrule.put_of_ne fun _ => RulesEngineKey.noConfusion
  | setRuleEnabled ruleId enabled =>
      simp only [exec, setRuleEnabled, Tx.ok_bind, ok_requireCallerAdmin, ok_load, Tx.ok_fromSome,
        Tx.ok_ask, ok_save] at hcall
      obtain ⟨_, _, ⟨-, rfl⟩, _, _, ⟨rfl, rfl⟩, rule, _, ⟨hrule, rfl⟩, _, _, ⟨rfl, rfl⟩,
        rfl⟩ := hcall
      exact h.put_rule (h ruleId rule hrule)
  | setSliceRules vaultId sliceId ruleIds =>
      simp only [exec, setSliceRules, Tx.ok_bind, ok_requireVaultOwner, ok_save] at hcall
      obtain ⟨_, _, ⟨-, rfl⟩, rfl⟩ := hcall
      exact h.put_of_ne fun _ => RulesEngineKey.noConfusion

/-- In every run each rule is stored under its own number. -/
theorem rules_numbered {ks : List Event} (hrun : Run Step .empty ks s) : Numbered s :=
  hrun.invariant (I := Numbered) (fun _ _ hrule => nomatch hrule) fun _ _ _ hs hstep =>
    exec_numbered hs hstep

end Registry

/-! ## Validation -/

section Validation

variable {e : Env} {s t : State} {sliceId ruleId : Nat} {sliceData ruleBytes : Bytes}
  {ids : List Nat} {o : RuleOutcome} {outcomes : List RuleOutcome}
  {r : ValidationResult}

/-- What a number in the list of a slice stands for: the outcome of an enabled rule. -/
def outcomeOf (s : State) (sliceData : Bytes) (ruleId : Nat) : Option RuleOutcome :=
  ((getRule s ruleId).filter (·.enabled)).map fun rule =>
    ⟨ruleId, rule.priority, decide (rule.ruleBytes <+: sliceData)⟩

/-- Every pair of positions whose outcomes are in conflict is listed once. -/
def ListsConflicts (outcomes : List RuleOutcome) (conflicts : List Nat) : Prop :=
  ∃ pairs : List (Nat × Nat), pairs.Nodup ∧
    (∀ i j, (i, j) ∈ pairs ↔
      i < j ∧ ∃ a b, outcomes[i]? = some a ∧ outcomes[j]? = some b ∧ a.Conflicts b) ∧
    conflicts = pairs.flatMap fun pair =>
      [pair.1, pair.2].filterMap fun i => (outcomes[i]?).map (·.ruleId)

theorem evaluateRule_eq : evaluateRule sliceData ruleBytes = decide (ruleBytes <+: sliceData) := by
  unfold evaluateRule
  split
  · rename_i hempty
    obtain rfl := List.length_eq_zero_iff.mp hempty
    exact (decide_eq_true List.nil_prefix).symm
  · split
    · rename_i hshort
      exact (decide_eq_false fun hp => Nat.not_lt.mpr hp.length_le hshort).symm
    · refine Bool.eq_iff_iff.mpr ?_
      rw [List.all_eq_true, decide_eq_true_iff, List.prefix_iff_getElem?]
      constructor
      · intro hall i hi
        have h := of_decide_eq_true (hall i (List.mem_range.mpr hi))
        rw [h, List.getElem?_eq_getElem hi]
      · intro hpre i hi
        have hlt := List.mem_range.mp hi
        exact decide_eq_true ((hpre i hlt).trans (List.getElem?_eq_getElem hlt).symm)

theorem outcomeOf_of_none (h : getRule s ruleId = none) : outcomeOf s sliceData ruleId = none := by
  unfold outcomeOf
  rw [h]
  rfl

theorem outcomeOf_of_some {rule : CompositionRule} (h : getRule s ruleId = some rule) :
    outcomeOf s sliceData ruleId = if rule.enabled then
      some ⟨ruleId, rule.priority, decide (rule.ruleBytes <+: sliceData)⟩ else none := by
  unfold outcomeOf
  rw [h, Option.filter_some]
  split <;> rfl

theorem evaluateRules_eq : evaluateRules s sliceData ids =
    (ids.filterMap (outcomeOf s sliceData),
      (ids.filterMap (outcomeOf s sliceData)).all (·.passed)) := by
  induction ids with
  | nil => rfl
  | cons ruleId ids ih =>
      unfold evaluateRules
      rw [ih, List.filterMap_cons]
      cases hrule : getRule s ruleId with
      | none => rw [outcomeOf_of_none hrule]
      | some rule =>
          rw [outcomeOf_of_some hrule]
          dsimp only
          by_cases henabled : rule.enabled = true
          · rw [if_pos henabled, if_pos henabled, evaluateRule_eq]
            rfl
          · rw [if_neg henabled, if_neg henabled]

/-- The positions of the two loops. -/
def positionPairs (n : Nat) : List (Nat × Nat) :=
  (List.range n).flatMap fun i => (List.range' (i + 1) (n - (i + 1))).map (i, ·)

theorem mem_positionPairs {n i j : Nat} : (i, j) ∈ positionPairs n ↔ i < j ∧ j < n := by
  simp only [positionPairs, List.mem_flatMap, List.mem_range, List.mem_map, List.mem_range'_1,
    Prod.mk.injEq]
  constructor
  · rintro ⟨i', hi', j', ⟨hle, hlt⟩, rfl, rfl⟩
    omega
  · rintro ⟨hij, hj⟩
    exact ⟨i, by omega, j, ⟨by omega, by omega⟩, rfl, rfl⟩

theorem positionPairs_nodup (n : Nat) : (positionPairs n).Nodup := by
  refine List.nodup_flatMap.mpr ⟨fun i _ => ?_, ?_⟩
  · exact (List.nodup_range' 1 (by decide)).map fun a b h => (Prod.mk.inj h).2
  · refine List.nodup_range.imp fun {i i'} hne => ?_
    rw [Function.onFun, List.disjoint_left]
    intro pair hpair hpair'
    obtain ⟨_, _, rfl⟩ := List.mem_map.mp hpair
    obtain ⟨_, _, h⟩ := List.mem_map.mp hpair'
    exact hne (Prod.mk.inj h).1.symm

/-- Whether the outcomes at two positions are in conflict. -/
def conflictAt (outcomes : List RuleOutcome) (pair : Nat × Nat) : Bool :=
  (outcomes[pair.1]?).any fun a => (outcomes[pair.2]?).any fun b => a.Conflicts b

theorem conflictAt_iff {i j : Nat} : conflictAt outcomes (i, j) = true ↔
    ∃ a b, outcomes[i]? = some a ∧ outcomes[j]? = some b ∧ a.Conflicts b := by
  unfold conflictAt
  cases outcomes[i]? with
  | none => simp
  | some a =>
      cases outcomes[j]? with
      | none => simp
      | some b => simp

theorem flatMap_filter {α β : Type} (p : α → Bool) (f : α → List β) (l : List α) :
    (l.filter p).flatMap f = l.flatMap fun x => if p x then f x else [] := by
  induction l with
  | nil => rfl
  | cons x l ih =>
      rw [List.filter_cons, List.flatMap_cons, ← ih]
      split <;> rfl

theorem detectConflicts_lists (outcomes : List RuleOutcome) :
    ListsConflicts outcomes (detectConflicts outcomes) := by
  refine ⟨(positionPairs outcomes.length).filter (conflictAt outcomes),
    (positionPairs_nodup _).filter _, fun i j => ?_, ?_⟩
  · rw [List.mem_filter, mem_positionPairs, conflictAt_iff]
    constructor
    · rintro ⟨⟨hij, -⟩, hconflict⟩
      exact ⟨hij, hconflict⟩
    · rintro ⟨hij, a, b, ha, hb, hab⟩
      exact ⟨⟨hij, (List.getElem?_eq_some_iff.mp hb).1⟩, a, b, ha, hb, hab⟩
  · rw [flatMap_filter, positionPairs, List.flatMap_assoc]
    refine List.flatMap_congr fun i _ => ?_
    rw [List.flatMap_map]
    refine List.flatMap_congr fun j _ => ?_
    unfold conflictAt
    cases hi : outcomes[i]? with
    | none => rfl
    | some a =>
        cases hj : outcomes[j]? with
        | none => rfl
        | some b =>
            by_cases hab : a.Conflicts b <;> simp [hab, hi, hj]

/-- A conflict needs an outcome that has not passed. -/
theorem detectConflicts_of_all (h : ∀ o ∈ outcomes, o.passed = true) :
    detectConflicts outcomes = [] := by
  refine List.flatMap_eq_nil_iff.mpr fun i _ => List.flatMap_eq_nil_iff.mpr fun j _ => ?_
  split
  · rename_i a b ha hb
    refine if_neg fun hconflict => hconflict.2 ?_
    rw [h a (List.mem_of_getElem? ha), h b (List.mem_of_getElem? hb)]
  · rfl

/-- The second reason why a slice is not valid is never the only one. -/
theorem valid_of_passed (outcomes : List RuleOutcome) :
    (outcomes.all (·.passed) && (detectConflicts outcomes).isEmpty) = outcomes.all (·.passed) := by
  cases hall : outcomes.all (·.passed) with
  | false => rfl
  | true => rw [detectConflicts_of_all (List.all_eq_true.mp hall)]; rfl

theorem priority_of_outcomeOf (h : outcomeOf s sliceData ruleId = some o) :
    o.priority = rulePriority s ruleId := by
  unfold outcomeOf at h
  unfold rulePriority
  obtain ⟨rule, hrule, rfl⟩ := Option.map_eq_some_iff.mp h
  rw [(Option.filter_eq_some_iff.mp hrule).1]
  rfl

/-- The outcomes of one priority are those of the rules of that priority. -/
theorem filter_outcomes (priority : Nat) :
    (ids.filterMap (outcomeOf s sliceData)).filter (fun o => o.priority = priority) =
      (ids.filter fun ruleId => rulePriority s ruleId = priority).filterMap
        (outcomeOf s sliceData) := by
  induction ids with
  | nil => rfl
  | cons ruleId ids ih =>
      by_cases hkey : rulePriority s ruleId = priority
      · cases ho : outcomeOf s sliceData ruleId with
        | none => simp [ho, hkey, ih]
        | some o => simp [ho, hkey, ih, priority_of_outcomeOf ho]
      · cases ho : outcomeOf s sliceData ruleId with
        | none => simp [ho, hkey, ih]
        | some o => simp [ho, hkey, ih, priority_of_outcomeOf ho]

/-- What the check returns. -/
theorem validateSliceWithRules_ok :
    validateSliceWithRules sliceId sliceData e s = .ok (r, s) ↔
      r.sliceId = sliceId ∧ r.validatedAt = e.timestamp ∧
      r.outcomes = (BubbleSort.sort (rulePriority s) (getSliceRules s sliceId)).filterMap
        (outcomeOf s sliceData) ∧
      r.conflicts = detectConflicts r.outcomes ∧ r.overallValid = r.outcomes.all (·.passed) := by
  simp only [validateSliceWithRules, Tx.ok_bind, Tx.ok_read, Tx.ok_ask, Tx.ok_pure]
  constructor
  · rintro ⟨_, _, ⟨rfl, rfl⟩, _, _, ⟨rfl, rfl⟩, _, _, ⟨rfl, rfl⟩, rfl, -⟩
    rw [evaluateRules_eq]
    exact ⟨rfl, rfl, rfl, rfl, valid_of_passed _⟩
  · rintro ⟨rfl, htime, houtcomes, hconflicts, hvalid⟩
    refine ⟨_, s, ⟨rfl, rfl⟩, _, s, ⟨rfl, rfl⟩, _, s, ⟨rfl, rfl⟩, ?_, rfl⟩
    rw [evaluateRules_eq, ← houtcomes, ← hconflicts, ← htime]
    dsimp only
    rw [hconflicts, valid_of_passed, ← hvalid, ← hconflicts]

/-- A slice is valid if its data starts with the bytes of every enabled rule of its list. -/
theorem all_passed_iff (hperm : outcomes.Perm (ids.filterMap (outcomeOf s sliceData))) :
    outcomes.all (·.passed) = true ↔ ∀ ruleId ∈ ids, ∀ rule, getRule s ruleId = some rule →
      rule.enabled = true → rule.ruleBytes <+: sliceData := by
  rw [hperm.all_eq, List.all_eq_true]
  constructor
  · intro hall ruleId hid rule hrule henabled
    have houtcome : outcomeOf s sliceData ruleId = _ := outcomeOf_of_some hrule
    rw [if_pos henabled] at houtcome
    exact of_decide_eq_true (hall _ (List.mem_filterMap.mpr ⟨ruleId, hid, houtcome⟩))
  · intro hrules o ho
    obtain ⟨ruleId, hid, houtcome⟩ := List.mem_filterMap.mp ho
    unfold outcomeOf at houtcome
    obtain ⟨rule, hfound, rfl⟩ := Option.map_eq_some_iff.mp houtcome
    obtain ⟨hrule, henabled⟩ := Option.filter_eq_some_iff.mp hfound
    exact decide_eq_true (hrules ruleId hid rule hrule henabled)

/-- The outcomes are those of the enabled rules of the list, by priority and in the order of the
list within one. Exactly the pairs of one priority with different outcomes are conflicts. The slice
is valid exactly if its data starts with the bytes of every enabled rule, so that the order of the
list does not matter. -/
theorem validation_plain (s : State) (e : Env) (sliceId : Nat) (sliceData : Bytes) :
    ∃ r, validateSliceWithRules sliceId sliceData e s = .ok (r, s) ∧
      r.outcomes.Perm ((getSliceRules s sliceId).filterMap (outcomeOf s sliceData)) ∧
      r.outcomes.Pairwise (·.priority ≤ ·.priority) ∧
      (∀ priority, r.outcomes.filter (fun o => o.priority = priority) =
        ((getSliceRules s sliceId).filterMap (outcomeOf s sliceData)).filter
          fun o => o.priority = priority) ∧
      ListsConflicts r.outcomes r.conflicts ∧
      (r.overallValid = true ↔ ∀ o ∈ r.outcomes, o.passed = true) ∧
      ∀ ids, ids.Perm (getSliceRules s sliceId) →
        ∃ r', validateSliceWithRules sliceId sliceData e (s.put (.sliceRules sliceId) ids) =
            .ok (r', s.put (.sliceRules sliceId) ids) ∧ r'.overallValid = r.overallValid := by
  have hsorted : ∀ s, ∃ outcomes : List RuleOutcome,
      outcomes = (BubbleSort.sort (rulePriority s) (getSliceRules s sliceId)).filterMap
        (outcomeOf s sliceData) ∧
      outcomes.Perm ((getSliceRules s sliceId).filterMap (outcomeOf s sliceData)) :=
    fun s => ⟨_, rfl, BubbleSort.sort_perm.filterMap _⟩
  obtain ⟨outcomes, houtcomes, hperm⟩ := hsorted s
  refine ⟨⟨sliceId, outcomes.all (·.passed), outcomes, detectConflicts outcomes, e.timestamp⟩,
    validateSliceWithRules_ok.mpr ⟨rfl, rfl, houtcomes, rfl, rfl⟩, hperm, ?_, fun priority => ?_,
    detectConflicts_lists outcomes, List.all_eq_true, fun ids hids => ?_⟩
  · rw [houtcomes]
    refine BubbleSort.sort_sorted.filterMap _ fun ruleId ruleId' hle o ho o' ho' => ?_
    rw [priority_of_outcomeOf ho, priority_of_outcomeOf ho']
    exact hle
  · rw [houtcomes, filter_outcomes, filter_outcomes, BubbleSort.sort_stable]
  · obtain ⟨outcomes', houtcomes', hperm'⟩ := hsorted (s.put (.sliceRules sliceId) ids)
    refine ⟨⟨sliceId, outcomes'.all (·.passed), outcomes', detectConflicts outcomes', e.timestamp⟩,
      validateSliceWithRules_ok.mpr ⟨rfl, rfl, houtcomes', rfl, rfl⟩, Bool.eq_iff_iff.mpr ?_⟩
    have hlist : getSliceRules (s.put (.sliceRules sliceId) ids) sliceId = ids := by
      unfold getSliceRules
      rw [Store.get_put_self, Option.getD_some]
    have hrule : ∀ ruleId, getRule (s.put (.sliceRules sliceId) ids) ruleId = getRule s ruleId :=
      fun ruleId => Store.get_put_of_ne RulesEngineKey.noConfusion
    dsimp only
    rw [all_passed_iff hperm', all_passed_iff hperm, hlist]
    simp only [hrule, hids.mem_iff]

/-- A slice with two rules of one priority, of which its data meets the second. -/
def twoRules : State :=
  ((Store.empty.put (.rule 0) ⟨0, [7], 1, 0, true, 0⟩).put (.rule 1) ⟨1, [], 1, 0, true, 0⟩).put
    (.sliceRules 5) [0, 1]

def anyCall : Env := ⟨0, fun _ => false, ⟨.empty, ⟨fun _ _ => 0, []⟩⟩⟩

theorem validation_plain_swapped : ∃ r r' : ValidationResult,
    validateSliceWithRules 5 [8] anyCall twoRules = .ok (r, twoRules) ∧
    validateSliceWithRules 5 [8] anyCall
      (twoRules.put (.sliceRules 5) [1, 0]) = .ok (r', twoRules.put (.sliceRules 5) [1, 0]) ∧
    r'.overallValid = r.overallValid := by
  obtain ⟨r, hr, -, -, -, -, -, hids⟩ :=
    validation_plain twoRules anyCall 5 [8]
  obtain ⟨r', hr', hvalid⟩ := hids [1, 0] (List.Perm.swap 0 1 [])
  exact ⟨r, r', hr, hr', hvalid⟩

end Validation

end Heirloom.Modules.CompositionRules
