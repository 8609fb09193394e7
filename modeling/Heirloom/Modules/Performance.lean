import Heirloom.Modules.Host
import Heirloom.Vaults
import Mathlib.Tactic

/-!
# Weights by performance

The owners of vaults record how attestors answer, and the weights of the attestors of a slice
follow from their records: a score is the share of good answers over the average latency, a weight
the share of a score in the sum of all, in basis points and rounded down. What the rounding leaves
goes to the last attestor of the list.

Results:
1. `weights_exact_iff`: the weights add up to the whole without an overflow, no score of zero has a
   weight beside a positive one and no higher score falls behind by more than the remainder, if and
   only if no record has more successes than the scale has room for and the last attestor has a
   positive score, or nothing is left to round, or there is no score at all.
2. `last_weighs_without_score`: an attestor without a single record is given a weight.
-/

namespace Heirloom.Modules.Performance

open Transaction TypedStore Runs

/-! ## Storage -/

/-- What is accumulated about an attestor on a slice. -/
structure PerformanceMetrics where
  totalResponses : Nat
  successfulResponses : Nat
  totalResponseTimeMs : Nat
  lastRecordedAt : Nat
deriving DecidableEq

structure AttestorWeight where
  attestor : Address
  weightBps : Nat
deriving DecidableEq

inductive SlicePerfKey
  | attestorPerf (sliceId : Nat) (attestor : Address)
  | sliceWeights (sliceId : Nat)
deriving DecidableEq

/-- The type of the value under a key. -/
@[reducible] def SlicePerfKey.Value : SlicePerfKey → Type
  | .attestorPerf _ _ => PerformanceMetrics
  | .sliceWeights _ => List AttestorWeight

abbrev State := Store SlicePerfKey.Value

abbrev storageGet (k : SlicePerfKey) : Routine SlicePerfKey.Value (Option k.Value) := load k

abbrev storageSet (k : SlicePerfKey) (v : k.Value) : Routine SlicePerfKey.Value Unit := save k v

/-! ## Functions -/

def PerformanceMetrics.empty : PerformanceMetrics := ⟨0, 0, 0, 0⟩

def recordAttestorPerformance (sliceId : Nat) (attestor : Address) (success : Bool)
    (responseTimeMs : Nat) : Routine SlicePerfKey.Value Unit := do
  let found : Option PerformanceMetrics ← storageGet (.attestorPerf sliceId attestor)
  let metrics := found.getD .empty
  let now ← ask (·.timestamp)
  storageSet (.attestorPerf sliceId attestor)
    { totalResponses := saturatingAdd64 metrics.totalResponses 1
      successfulResponses :=
        if success then saturatingAdd64 metrics.successfulResponses 1
        else metrics.successfulResponses
      totalResponseTimeMs := saturatingAdd64 metrics.totalResponseTimeMs responseTimeMs
      lastRecordedAt := now }

/-- The score of an attestor with a record. A quotient by zero is zero, as
`checked_div(..).unwrap_or(0)` has it. -/
def PerformanceMetrics.score (m : PerformanceMetrics) : Nat :=
  let successRateScaled := saturatingMul64 m.successfulResponses 1000000 / m.totalResponses
  let avgLatency := max (m.totalResponseTimeMs / m.totalResponses) 1
  successRateScaled / avgLatency

/-- The first loop of `calculateOptimalWeights`: the scores and their sum. -/
def gatherScores (sliceId : Nat) (attestors : List Address) :
    Routine SlicePerfKey.Value (List Nat × Nat) :=
  Tx.foldEach attestors ([], 0) fun acc attestor => do
    let found : Option PerformanceMetrics ← storageGet (.attestorPerf sliceId attestor)
    let score := found.elim 0 (·.score)
    pure (acc.1 ++ [score], saturatingAdd64 acc.2 score)

/-- No performance data yet: the same weight for all, and the remainder for the first. -/
def equalWeights (attestors : List Address) : List AttestorWeight :=
  let equalBps := 10000 / attestors.length
  let remainder := 10000 - equalBps * attestors.length
  attestors.mapIdx fun idx attestor =>
    ⟨attestor, if idx = 0 then equalBps + remainder else equalBps⟩

/-- The second loop of `calculateOptimalWeights`, over the attestors with their scores. The last
one absorbs the rounding remainder. -/
def assignFrom (scoreSum lastIdx : Nat) : Nat → Nat → List (Address × Nat) → List AttestorWeight
  | _, _, [] => []
  | idx, bpsAssigned, (attestor, score) :: rest =>
      let bps :=
        if idx = lastIdx then 10000 - bpsAssigned
        else min (saturatingMul64 score 10000 / scoreSum) 10000
      ⟨attestor, bps⟩ ::
        assignFrom scoreSum lastIdx (idx + 1) (min (bpsAssigned + bps) u32Max) rest

def calculateOptimalWeights (sliceId : Nat) (attestors : List Address) :
    Routine SlicePerfKey.Value (List AttestorWeight) := do
  let (scores, scoreSum) ← gatherScores sliceId attestors
  if attestors = [] then pure []
  else if scoreSum = 0 then pure (equalWeights attestors)
  else pure (assignFrom scoreSum (attestors.length - 1) 0 0 (attestors.zip scores))

def reweightSlice (sliceId : Nat) (attestors : List Address) :
    Routine SlicePerfKey.Value (List AttestorWeight) := do
  let weights ← calculateOptimalWeights sliceId attestors
  storageSet (.sliceWeights sliceId) weights
  pure weights

/-! ## The entry points of the contract -/

/-- The calls of the owner of any vault that change what is stored. -/
inductive Call
  | recordAttestorPerformance (sliceId : Nat) (attestor : Address) (success : Bool)
      (responseTimeMs : Nat)
  | reweightSlice (sliceId : Nat) (attestors : List Address)

def execCall : Call → Routine SlicePerfKey.Value Unit
  | .recordAttestorPerformance i a success time => recordAttestorPerformance i a success time
  | .reweightSlice i as => do let _ ← reweightSlice i as

def exec (vaultId : Nat) (caller : Address) (call : Call) : Routine SlicePerfKey.Value Unit := do
  requireVaultOwner vaultId caller
  execCall call

/-- A call with what it sees, the vault it is made for and its caller. -/
structure Event where
  env : Env
  vaultId : Nat
  caller : Address
  call : Call

/-- A call that succeeds; one that fails changes nothing. -/
def Step (s : State) (k : Event) (t : State) : Prop :=
  exec k.vaultId k.caller k.call k.env s = .ok ((), t)

def Reachable (s : State) : Prop := ∃ ks, Run Step .empty ks s

/-! ## Records -/

/-- What the contract keeps about an attestor. -/
def metricsOf (s : State) (sliceId : Nat) (attestor : Address) : Option PerformanceMetrics :=
  s.get (.attestorPerf sliceId attestor)

/-- Zero without a record. -/
def scoreOf (s : State) (sliceId : Nat) (attestor : Address) : Nat :=
  (metricsOf s sliceId attestor).elim 0 (·.score)

/-- A success is a response, and responses fit their counter. -/
def Counted (s : State) : Prop := ∀ sliceId attestor m, metricsOf s sliceId attestor = some m →
  m.successfulResponses ≤ m.totalResponses ∧ m.totalResponses ≤ u64Max

section Records

variable {e : Env} {s t : State} {sliceId : Nat} {attestor : Address} {attestors : List Address}
  {scores : List Nat} {scoreSum : Nat} {m : PerformanceMetrics}

theorem recordAttestorPerformance_counted {success : Bool} {time : Nat} (h : Counted s) :
    wp (recordAttestorPerformance sliceId attestor success time) (fun _ t => Counted t) e s := by
  simp only [recordAttestorPerformance, Tx.wp_bind, Tx.wp_ask, wp_load, wp_save]
  intro i a m hm
  by_cases hkey : SlicePerfKey.attestorPerf i a = .attestorPerf sliceId attestor
  · obtain ⟨rfl, rfl⟩ := SlicePerfKey.attestorPerf.inj hkey
    rw [metricsOf, Store.get_put_self] at hm
    obtain rfl := Option.some.inj hm
    have hbefore : ((metricsOf s i a).getD .empty).successfulResponses ≤
          ((metricsOf s i a).getD .empty).totalResponses ∧
        ((metricsOf s i a).getD .empty).totalResponses ≤ u64Max := by
      cases hfound : metricsOf s i a with
      | none => exact ⟨le_rfl, Nat.zero_le _⟩
      | some m => exact h i a m hfound
    simp only [metricsOf] at hbefore
    simp only [saturatingAdd64]
    split <;> omega
  · rw [metricsOf, Store.get_put_of_ne hkey] at hm
    exact h i a m hm

/-- The scores and their sum, which stays at the maximum. -/
theorem ok_gatherScores : gatherScores sliceId attestors e s = .ok ((scores, scoreSum), t) ↔
    scores = attestors.map (scoreOf s sliceId) ∧
      scoreSum = min (attestors.map (scoreOf s sliceId)).sum u64Max ∧ s = t := by
  have hround : ∀ (acc : List Nat × Nat) (a : Address) (acc' : List Nat × Nat) (t : State),
      (do
        let found : Option PerformanceMetrics ← storageGet (.attestorPerf sliceId a)
        let score := found.elim 0 (·.score)
        pure (acc.1 ++ [score], saturatingAdd64 acc.2 score) :
          Routine SlicePerfKey.Value (List Nat × Nat)) e s = .ok (acc', t) ↔
        True ∧ acc' = (acc.1 ++ [scoreOf s sliceId a],
          saturatingAdd64 acc.2 (scoreOf s sliceId a)) ∧ s = t := by
    intro acc a acc' t
    simp only [Tx.ok_bind, ok_load, Tx.ok_pure]
    constructor
    · rintro ⟨_, _, ⟨rfl, rfl⟩, rfl, rfl⟩
      exact ⟨trivial, rfl, rfl⟩
    · rintro ⟨-, rfl, rfl⟩
      exact ⟨_, s, ⟨rfl, rfl⟩, rfl, rfl⟩
  have hfold : ∀ (acc : List Nat) (n : Nat), n ≤ u64Max →
      attestors.foldl (fun acc a => (acc.1 ++ [scoreOf s sliceId a],
        saturatingAdd64 acc.2 (scoreOf s sliceId a))) (acc, n) =
        (acc ++ attestors.map (scoreOf s sliceId),
          min (n + (attestors.map (scoreOf s sliceId)).sum) u64Max) := by
    induction attestors with
    | nil =>
        intro acc n hn
        simp [Nat.min_eq_left hn]
    | cons a as ih =>
        intro acc n hn
        rw [List.foldl_cons]
        refine (ih _ _ (Nat.min_le_right _ _)).trans ?_
        simp only [List.map_cons, List.sum_cons, List.append_assoc, List.singleton_append,
          Prod.mk.injEq, true_and]
        omega
  rw [gatherScores, Tx.ok_foldEach_foldl hround, hfold [] 0 (Nat.zero_le _)]
  simp only [List.nil_append, Nat.zero_add, Prod.mk.injEq, implies_true, true_and, and_assoc]

/-- The weights that the code gives. -/
def weightsOf (s : State) (sliceId : Nat) (attestors : List Address) : List AttestorWeight :=
  let scoreSum := min (attestors.map (scoreOf s sliceId)).sum u64Max
  if attestors = [] then []
  else if scoreSum = 0 then equalWeights attestors
  else assignFrom scoreSum (attestors.length - 1) 0 0
    (attestors.zip (attestors.map (scoreOf s sliceId)))

theorem ok_calculateOptimalWeights {ws : List AttestorWeight} :
    calculateOptimalWeights sliceId attestors e s = .ok (ws, t) ↔
      ws = weightsOf s sliceId attestors ∧ s = t := by
  simp only [calculateOptimalWeights, Tx.ok_bind, Prod.exists, ok_gatherScores]
  constructor
  · rintro ⟨scores, scoreSum, _, ⟨rfl, rfl, rfl⟩, h⟩
    unfold weightsOf
    split at h
    case isTrue hnil =>
      rw [if_pos hnil]
      exact (Tx.ok_pure.mp h).imp Eq.symm id
    case isFalse hnil =>
      rw [if_neg hnil]
      split at h
      case isTrue hzero =>
        simp only [hzero, if_true]
        exact (Tx.ok_pure.mp h).imp Eq.symm id
      case isFalse hzero =>
        simp only [hzero, if_false]
        exact (Tx.ok_pure.mp h).imp Eq.symm id
  · rintro ⟨rfl, rfl⟩
    refine ⟨_, _, s, ⟨rfl, rfl, rfl⟩, ?_⟩
    unfold weightsOf
    split
    · exact Tx.ok_pure.mpr ⟨rfl, rfl⟩
    · split
      · exact Tx.ok_pure.mpr ⟨by simp_all, rfl⟩
      · exact Tx.ok_pure.mpr ⟨by simp_all, rfl⟩

theorem reweightSlice_counted (h : Counted s) :
    wp (reweightSlice sliceId attestors) (fun _ t => Counted t) e s := by
  simp only [reweightSlice, Tx.wp_bind, wp_save, Tx.wp_pure]
  intro ws t hws
  obtain ⟨-, rfl⟩ := ok_calculateOptimalWeights.mp hws
  intro i a m hm
  rw [metricsOf, Store.get_put_of_ne (by simp)] at hm
  exact h i a m hm

theorem counted_of_reachable (h : Reachable s) : Counted s := by
  obtain ⟨ks, hrun⟩ := h
  refine hrun.invariant (I := Counted) (fun _ _ _ hm => nomatch hm) fun s k t hs hstep => ?_
  obtain ⟨e, vaultId, caller, call⟩ := k
  obtain ⟨_, _, ⟨-, rfl⟩, hcall⟩ : ∃ _ u, (_ ∧ s = u) ∧ execCall call e u = .ok ((), t) := by
    simpa only [Step, exec, Tx.ok_bind, ok_requireVaultOwner] using hstep
  cases call with
  | recordAttestorPerformance => exact recordAttestorPerformance_counted hs _ _ hcall
  | reweightSlice i as =>
      simp only [execCall, Tx.ok_bind, Tx.ok_pure] at hcall
      obtain ⟨_, _, hreweight, -, rfl⟩ := hcall
      exact reweightSlice_counted hs _ _ hreweight

/-- A score is at most a million: the whole scale, at a latency of one. -/
theorem scoreOf_le (h : Counted s) : scoreOf s sliceId attestor ≤ 1000000 := by
  unfold scoreOf
  cases hm : metricsOf s sliceId attestor with
  | none => exact Nat.zero_le _
  | some m =>
      show m.score ≤ 1000000
      have hrate : saturatingMul64 m.successfulResponses 1000000 / m.totalResponses ≤ 1000000 := by
        refine Nat.div_le_of_le_mul ((Nat.min_le_left _ _).trans ?_)
        exact Nat.mul_le_mul_right _ (h sliceId attestor m hm).1
      exact (Nat.div_le_self _ _).trans hrate

theorem sum_scores_le (h : Counted s) (hlength : attestors.length ≤ u32Max) :
    (attestors.map (scoreOf s sliceId)).sum ≤ u64Max := by
  have hsum := List.sum_le_card_nsmul (attestors.map (scoreOf s sliceId)) 1000000 (by
    intro x hx
    obtain ⟨a, -, rfl⟩ := List.mem_map.mp hx
    exact scoreOf_le h)
  simp only [List.length_map, smul_eq_mul] at hsum
  simp only [u32Max, u64Max] at hlength ⊢
  omega

end Records

/-! ## Shares -/

/-- The rounded share of a score in a sum, in basis points. -/
def share (total score : Nat) : Nat := score * 10000 / total

/-- The sum of the scores of the attestors. -/
def totalScore (s : State) (sliceId : Nat) (attestors : List Address) : Nat :=
  (attestors.map (scoreOf s sliceId)).sum

/-- What the rounded shares of the attestors leave of the whole. -/
def roundingRemainder (s : State) (sliceId : Nat) (attestors : List Address) : Nat :=
  10000 - (attestors.map fun a => share (totalScore s sliceId attestors) (scoreOf s sliceId a)).sum

section Shares

variable {s : State} {sliceId total assigned idx x y : Nat} {a last : Address}
  {attestors front : List Address} {xs : List Nat}

@[simp] theorem share_zero : share total 0 = 0 := by
  rw [share, Nat.zero_mul, Nat.zero_div]

theorem share_mono (h : x ≤ y) : share total x ≤ share total y :=
  Nat.div_le_div_right (Nat.mul_le_mul_right _ h)

theorem share_le (h : x ≤ total) : share total x ≤ 10000 :=
  Nat.div_le_of_le_mul (Nat.mul_le_mul_right _ h)

/-- Rounded shares never exceed the share of the sum. -/
theorem sum_shares_le : (xs.map (share total)).sum ≤ share total xs.sum := by
  induction xs with
  | nil => exact Nat.zero_le _
  | cons x xs ih =>
      rw [List.map_cons, List.sum_cons, List.sum_cons]
      calc share total x + (xs.map (share total)).sum
          ≤ share total x + share total xs.sum := Nat.add_le_add_left ih _
        _ ≤ (x * 10000 + xs.sum * 10000) / total := Nat.div_add_div_le_add_div
        _ = share total (x + xs.sum) := by rw [share, Nat.add_mul]

/-- The second loop: rounded shares, and what is left for the last. -/
theorem assignFrom_eq (front : List (Address × Nat)) (idx assigned : Nat)
    (hscores : ∀ p ∈ front, p.2 ≤ total ∧ p.2 * 10000 ≤ u64Max)
    (hroom : assigned + (front.map fun p => share total p.2).sum ≤ u32Max) :
    assignFrom total (idx + front.length) idx assigned (front ++ [(last, x)]) =
      (front.map fun p => ⟨p.1, share total p.2⟩) ++
        [⟨last, 10000 - (assigned + (front.map fun p => share total p.2).sum)⟩] := by
  induction front generalizing idx assigned with
  | nil => simp [assignFrom]
  | cons p front ih =>
      obtain ⟨attestor, score⟩ := p
      obtain ⟨⟨hle, hfits⟩, hscores⟩ := List.forall_mem_cons.mp hscores
      simp only [List.map_cons, List.sum_cons] at hroom
      have hbps : min (saturatingMul64 score 10000 / total) 10000 = share total score := by
        rw [saturatingMul64, Nat.min_eq_left hfits]
        exact Nat.min_eq_left (share_le hle)
      have hassigned : min (assigned + share total score) u32Max = assigned + share total score :=
        Nat.min_eq_left (by omega)
      have hindex : idx + (front.length + 1) = idx + 1 + front.length := by omega
      rw [List.cons_append, assignFrom, List.length_cons, if_neg (by omega), hbps, hassigned, hindex,
        ih (idx + 1) (assigned + share total score) hscores (by omega), List.map_cons,
        List.map_cons, List.sum_cons, Nat.add_assoc]
      rfl

end Shares

/-! ## Exact weights -/

/-- No operation saturates and no difference is negative. -/
structure Unsaturated (s : State) (sliceId : Nat) (attestors : List Address)
    (weights : List AttestorWeight) : Prop where
  rates : ∀ a ∈ attestors, ∀ m, metricsOf s sliceId a = some m →
    m.successfulResponses * 1000000 ≤ u64Max
  total : totalScore s sliceId attestors ≤ u64Max
  shares : ∀ a ∈ attestors, scoreOf s sliceId a * 10000 ≤ u64Max
  assigned : (weights.dropLast.map (·.weightBps)).sum ≤ 10000
  equal : 10000 / attestors.length * attestors.length ≤ 10000

/-- One weight for each attestor in order, the whole in total, nothing for a score of zero beside a
positive one, and no higher score behind by more than the rounding remainder. -/
structure WeightsExact (s : State) (sliceId : Nat) (attestors : List Address)
    (weights : List AttestorWeight) : Prop where
  inOrder : weights.map (·.attestor) = attestors
  whole : (weights.map (·.weightBps)).sum = 10000
  unsaturated : Unsaturated s sliceId attestors weights
  unscored : (∃ a ∈ attestors, 0 < scoreOf s sliceId a) →
    ∀ w ∈ weights, scoreOf s sliceId w.attestor = 0 → w.weightBps = 0
  ordered : ∀ w ∈ weights, ∀ w' ∈ weights,
    scoreOf s sliceId w'.attestor < scoreOf s sliceId w.attestor →
    w'.weightBps ≤ w.weightBps + roundingRemainder s sliceId attestors

section Exact

variable {s : State} {sliceId : Nat} {last : Address} {attestors front : List Address}

theorem totalScore_le (h : Counted s) (hlength : attestors.length ≤ u32Max) :
    totalScore s sliceId attestors ≤ u64Max := sum_scores_le h hlength

theorem score_fits (h : Counted s) (a : Address) : scoreOf s sliceId a * 10000 ≤ u64Max := by
  have hscore : scoreOf s sliceId a ≤ 1000000 := scoreOf_le h
  simp only [u64Max]
  omega

theorem le_totalScore {a : Address} (ha : a ∈ attestors) :
    scoreOf s sliceId a ≤ totalScore s sliceId attestors :=
  List.le_sum_of_mem (List.mem_map_of_mem ha)

/-- The rounded shares stay within the whole. -/
theorem sum_share_le : (attestors.map fun a =>
    share (totalScore s sliceId attestors) (scoreOf s sliceId a)).sum ≤ 10000 := by
  have hsum : ((attestors.map (scoreOf s sliceId)).map
      (share (totalScore s sliceId attestors))).sum ≤ share (totalScore s sliceId attestors)
        (attestors.map (scoreOf s sliceId)).sum := sum_shares_le
  rw [List.map_map] at hsum
  exact hsum.trans (share_le le_rfl)

/-- The weights where there is a score. -/
theorem weightsOf_append (h : Counted s) (hlength : (front ++ [last]).length ≤ u32Max)
    (hpos : totalScore s sliceId (front ++ [last]) ≠ 0) :
    weightsOf s sliceId (front ++ [last]) =
      (front.map fun a =>
        ⟨a, share (totalScore s sliceId (front ++ [last])) (scoreOf s sliceId a)⟩) ++
      [⟨last, 10000 - (front.map fun a =>
        share (totalScore s sliceId (front ++ [last])) (scoreOf s sliceId a)).sum⟩] := by
  have hsum : min ((front ++ [last]).map (scoreOf s sliceId)).sum u64Max =
      totalScore s sliceId (front ++ [last]) := Nat.min_eq_left (totalScore_le h hlength)
  have hwhole : ((front ++ [last]).map fun a =>
      share (totalScore s sliceId (front ++ [last])) (scoreOf s sliceId a)).sum ≤ 10000 :=
    sum_share_le
  rw [List.map_append, List.sum_append] at hwhole
  have hzip : (front ++ [last]).zip ((front ++ [last]).map (scoreOf s sliceId)) =
      (front.map fun a => (a, scoreOf s sliceId a)) ++ [(last, scoreOf s sliceId last)] := by
    rw [← List.map_prod_left_eq_zip, List.map_append]
    rfl
  have hindex : (front ++ [last]).length - 1 =
      0 + (front.map fun a => (a, scoreOf s sliceId a)).length := by simp
  unfold weightsOf
  rw [hsum, if_neg (List.append_ne_nil_of_right_ne_nil _ (List.cons_ne_nil _ _)), if_neg hpos,
    hzip, hindex, assignFrom_eq, List.map_map, List.map_map]
  · simp only [Function.comp_def, Nat.zero_add]
  · intro p hp
    obtain ⟨a, ha, rfl⟩ := List.mem_map.mp hp
    exact ⟨le_totalScore (List.mem_append_left _ ha), score_fits h a⟩
  · rw [List.map_map, Nat.zero_add]
    refine le_trans (Nat.le_of_add_right_le hwhole) (by decide)

/-- The weights where there is none. -/
theorem sum_equalWeights (hne : attestors ≠ []) :
    ((equalWeights attestors).map (·.weightBps)).sum = 10000 := by
  obtain ⟨a, rest, rfl⟩ := List.exists_cons_of_ne_nil hne
  have hrest : ∀ equal : Nat, ((rest.mapIdx fun _ a => (⟨a, equal⟩ : AttestorWeight)).map
      (·.weightBps)).sum = equal * rest.length := by
    intro equal
    have hall : (rest.mapIdx fun _ a => (⟨a, equal⟩ : AttestorWeight)).map (·.weightBps) =
        List.replicate rest.length equal := by
      refine List.eq_replicate_iff.mpr ⟨by simp, fun w hw => ?_⟩
      obtain ⟨_, hmem, rfl⟩ := List.mem_map.mp hw
      obtain ⟨i, hi, rfl⟩ := List.mem_mapIdx.mp hmem
      rfl
    rw [hall, List.sum_replicate, smul_eq_mul, Nat.mul_comm]
  have hwhole : 10000 / (a :: rest).length * (a :: rest).length ≤ 10000 :=
    Nat.div_mul_le_self _ _
  simp only [equalWeights, List.mapIdx_cons, List.map_cons, List.sum_cons, if_true,
    Nat.add_eq_zero_iff, Nat.one_ne_zero, and_false, if_false, hrest]
  rw [List.length_cons, Nat.mul_succ] at hwhole ⊢
  omega

theorem map_attestor_equalWeights : (equalWeights attestors).map (·.attestor) = attestors := by
  refine List.ext_getElem (by simp [equalWeights]) fun i hi hi' => ?_
  simp [equalWeights]

/-- The scale has room for the successes of a record. -/
theorem rate_fits_iff (m : PerformanceMetrics) :
    m.successfulResponses * 1000000 ≤ u64Max ↔ m.successfulResponses ≤ 18446744073709 := by
  simp only [u64Max]
  omega

theorem unsaturated_of (h : Counted s) (hlength : attestors.length ≤ u32Max)
    {ws : List AttestorWeight} (hwhole : (ws.map (·.weightBps)).sum = 10000)
    (hrates : ∀ a ∈ attestors, ∀ m, metricsOf s sliceId a = some m →
      m.successfulResponses ≤ 18446744073709) : Unsaturated s sliceId attestors ws where
  rates a ha m hm := (rate_fits_iff m).mpr (hrates a ha m hm)
  total := totalScore_le h hlength
  shares a _ := score_fits h a
  assigned := by
    rw [← hwhole]
    exact ((List.dropLast_sublist ws).map _).sum_le_sum fun _ _ => Nat.zero_le _
  equal := Nat.div_mul_le_self _ _

/-- Without a score all weights are exact. -/
theorem exact_of_unscored (h : Counted s) (hne : attestors ≠ [])
    (hlength : attestors.length ≤ u32Max)
    (hrates : ∀ a ∈ attestors, ∀ m, metricsOf s sliceId a = some m →
      m.successfulResponses ≤ 18446744073709)
    (hzero : totalScore s sliceId attestors = 0) :
    WeightsExact s sliceId attestors (weightsOf s sliceId attestors) := by
  have hweights : weightsOf s sliceId attestors = equalWeights attestors := by
    unfold weightsOf
    rw [if_neg hne, if_pos]
    rw [totalScore] at hzero
    rw [hzero]
    rfl
  have hnone : ∀ a ∈ attestors, scoreOf s sliceId a = 0 := fun a ha =>
    Nat.le_zero.mp (hzero ▸ le_totalScore ha)
  rw [hweights]
  have hattestors : (equalWeights attestors).map (·.attestor) = attestors :=
    map_attestor_equalWeights
  refine ⟨hattestors, sum_equalWeights hne,
    unsaturated_of h hlength (sum_equalWeights hne) hrates, ?_, ?_⟩
  · rintro ⟨a, ha, hpos⟩
    exact absurd (hnone a ha) hpos.ne'
  · intro w hw w' _ hlt
    have hmem : w.attestor ∈ attestors := by
      rw [← hattestors]
      exact List.mem_map_of_mem hw
    exact absurd (hnone _ hmem) (Nat.ne_zero_of_lt hlt)

/-- Where there is a score, every weight is the rounded share of its score, and only the last one
may be more, by the remainder. -/
theorem weights_near (h : Counted s) (hlength : (front ++ [last]).length ≤ u32Max)
    (hpos : totalScore s sliceId (front ++ [last]) ≠ 0) :
    (weightsOf s sliceId (front ++ [last])).map (·.attestor) = front ++ [last] ∧
    ((weightsOf s sliceId (front ++ [last])).map (·.weightBps)).sum = 10000 ∧
    (∀ w ∈ weightsOf s sliceId (front ++ [last]), w.weightBps =
        share (totalScore s sliceId (front ++ [last])) (scoreOf s sliceId w.attestor) ∨
      w.attestor = last ∧ w.weightBps =
        share (totalScore s sliceId (front ++ [last])) (scoreOf s sliceId last) +
          roundingRemainder s sliceId (front ++ [last])) ∧
    ∃ w ∈ weightsOf s sliceId (front ++ [last]), w.attestor = last ∧ w.weightBps =
        share (totalScore s sliceId (front ++ [last])) (scoreOf s sliceId last) +
          roundingRemainder s sliceId (front ++ [last]) := by
  have hwhole : ((front ++ [last]).map fun a =>
      share (totalScore s sliceId (front ++ [last])) (scoreOf s sliceId a)).sum ≤ 10000 :=
    sum_share_le
  have hlast : 10000 - (front.map fun a =>
      share (totalScore s sliceId (front ++ [last])) (scoreOf s sliceId a)).sum =
        share (totalScore s sliceId (front ++ [last])) (scoreOf s sliceId last) +
          roundingRemainder s sliceId (front ++ [last]) := by
    rw [roundingRemainder]
    rw [List.map_append, List.sum_append, List.map_singleton, List.sum_singleton] at hwhole ⊢
    omega
  rw [weightsOf_append h hlength hpos, hlast]
  refine ⟨?_, ?_, ?_, ?_⟩
  · rw [List.map_append, List.map_map]
    exact congrArg (· ++ [last]) (List.map_id' _)
  · rw [List.map_append, List.map_map, List.sum_append, List.map_singleton, List.sum_singleton,
      ← hlast]
    refine Nat.add_sub_cancel' (le_trans ?_ hwhole)
    rw [List.map_append, List.sum_append]
    exact Nat.le_add_right _ _
  · intro w hw
    rcases List.mem_append.mp hw with hw | hw
    · obtain ⟨a, -, rfl⟩ := List.mem_map.mp hw
      exact .inl rfl
    · obtain rfl := List.mem_singleton.mp hw
      exact .inr ⟨rfl, rfl⟩
  · exact ⟨_, List.mem_append_right _ (List.mem_singleton_self _), rfl, rfl⟩

/-- With a score, the weights are exact if the last attestor has one too or nothing is left. -/
theorem exact_iff_of_scored (h : Counted s) (hlength : (front ++ [last]).length ≤ u32Max)
    (hpos : totalScore s sliceId (front ++ [last]) ≠ 0) :
    WeightsExact s sliceId (front ++ [last]) (weightsOf s sliceId (front ++ [last])) ↔
      (∀ a ∈ front ++ [last], ∀ m, metricsOf s sliceId a = some m →
        m.successfulResponses ≤ 18446744073709) ∧
      (0 < scoreOf s sliceId last ∨ roundingRemainder s sliceId (front ++ [last]) = 0) := by
  obtain ⟨hattestors, hwhole, hnear, wlast, hwlast, hlast, hbps⟩ := weights_near h hlength hpos
  constructor
  · intro hexact
    refine ⟨fun a ha m hm => (rate_fits_iff m).mp (hexact.unsaturated.rates a ha m hm), ?_⟩
    refine (Nat.eq_zero_or_pos (scoreOf s sliceId last)).symm.imp id fun hzero => ?_
    have hsome : ∃ a ∈ front ++ [last], 0 < scoreOf s sliceId a := by
      obtain ⟨x, hx, hxpos⟩ := List.exists_mem_ne_zero_of_sum_ne_zero hpos
      obtain ⟨a, ha, rfl⟩ := List.mem_map.mp hx
      exact ⟨a, ha, Nat.pos_of_ne_zero hxpos⟩
    have hnothing := hexact.unscored hsome wlast hwlast (by rw [hlast, hzero])
    rw [hbps] at hnothing
    exact (Nat.add_eq_zero_iff.mp hnothing).2
  · rintro ⟨hrates, hsound⟩
    refine ⟨hattestors, hwhole, unsaturated_of h hlength hwhole hrates, ?_, ?_⟩
    · intro _ w hw hzero
      rcases hnear w hw with hshare | ⟨hwattestor, hshare⟩
      · rw [hshare, hzero, share_zero]
      · rw [hwattestor] at hzero
        have hleft := hsound.resolve_left (by rw [hzero]; exact lt_irrefl 0)
        rw [hshare, hzero, hleft, share_zero]
    · intro w hw w' hw' hlt
      have hbounds : ∀ v ∈ weightsOf s sliceId (front ++ [last]),
          share (totalScore s sliceId (front ++ [last])) (scoreOf s sliceId v.attestor) ≤
              v.weightBps ∧
            v.weightBps ≤
              share (totalScore s sliceId (front ++ [last])) (scoreOf s sliceId v.attestor) +
                roundingRemainder s sliceId (front ++ [last]) := by
        intro v hv
        rcases hnear v hv with hshare | ⟨hvattestor, hshare⟩
        · exact ⟨hshare.ge, hshare.le.trans (Nat.le_add_right _ _)⟩
        · rw [hvattestor, hshare]
          exact ⟨Nat.le_add_right _ _, le_rfl⟩
      calc w'.weightBps
          ≤ share (totalScore s sliceId (front ++ [last])) (scoreOf s sliceId w'.attestor) +
              roundingRemainder s sliceId (front ++ [last]) := (hbounds w' hw').2
        _ ≤ share (totalScore s sliceId (front ++ [last])) (scoreOf s sliceId w.attestor) +
              roundingRemainder s sliceId (front ++ [last]) :=
            Nat.add_le_add_right (share_mono hlt.le) _
        _ ≤ w.weightBps + roundingRemainder s sliceId (front ++ [last]) :=
            Nat.add_le_add_right (hbounds w hw).1 _

/-- In every reachable state, and for every list of attestors, the weights are exact if and only
if no attestor of the list has more successes than the scale has room for, and the last one has a
positive score, or no score is positive, or the rounded shares leave nothing. -/
theorem weights_exact_iff (hreach : Reachable s) (e : Env) (sliceId : Nat)
    (attestors : List Address) (hne : attestors ≠ []) (hlength : attestors.length ≤ u32Max) :
    (∃ ws, calculateOptimalWeights sliceId attestors e s = .ok (ws, s) ∧
      WeightsExact s sliceId attestors ws) ↔
    (∀ a ∈ attestors, ∀ m, metricsOf s sliceId a = some m →
      m.successfulResponses ≤ 18446744073709) ∧
    (0 < scoreOf s sliceId (attestors.getLast hne) ∨
      (∀ a ∈ attestors, scoreOf s sliceId a = 0) ∨
      roundingRemainder s sliceId attestors = 0) := by
  have hcounted := counted_of_reachable hreach
  have hcall : (∃ ws, calculateOptimalWeights sliceId attestors e s = .ok (ws, s) ∧
      WeightsExact s sliceId attestors ws) ↔
        WeightsExact s sliceId attestors (weightsOf s sliceId attestors) := by
    constructor
    · rintro ⟨ws, hok, hexact⟩
      obtain ⟨rfl, -⟩ := ok_calculateOptimalWeights.mp hok
      exact hexact
    · intro hexact
      exact ⟨_, ok_calculateOptimalWeights.mpr ⟨rfl, rfl⟩, hexact⟩
  rw [hcall]
  rcases Nat.eq_zero_or_pos (totalScore s sliceId attestors) with hzero | hpos
  · have hnone : ∀ a ∈ attestors, scoreOf s sliceId a = 0 := fun a ha =>
      Nat.le_zero.mp (hzero ▸ le_totalScore ha)
    constructor
    · intro hexact
      exact ⟨fun a ha m hm => (rate_fits_iff m).mp (hexact.unsaturated.rates a ha m hm),
        .inr (.inl hnone)⟩
    · rintro ⟨hrates, -⟩
      exact exact_of_unscored hcounted hne hlength hrates hzero
  · have hsome : ¬ ∀ a ∈ attestors, scoreOf s sliceId a = 0 := by
      intro hnone
      obtain ⟨x, hx, hxpos⟩ := List.exists_mem_ne_zero_of_sum_ne_zero hpos.ne'
      obtain ⟨a, ha, rfl⟩ := List.mem_map.mp hx
      exact hxpos (hnone a ha)
    have hsplit := List.dropLast_append_getLast hne
    have hscored := @exact_iff_of_scored s sliceId (attestors.getLast hne) attestors.dropLast
    rw [hsplit] at hscored
    rw [hscored hcounted hlength hpos.ne', or_iff_right hsome]

end Exact

/-! ## Runs of the owner of a vault -/

/-- The contract with vault 1 of owner 5. -/
def contractState : Heirloom.State :=
  ⟨Store.put .empty (.vault 1) (emptyVault ⟨5⟩ ⟨6⟩ 100 0 ⟨8⟩ none), ⟨fun _ _ => 0, []⟩⟩

/-- What a call at time 7 sees. -/
def ownerEnv : Env := ⟨7, fun _ => true, contractState⟩

/-- The owner of vault 1 records an answer of an attestor, after a millisecond. -/
def answer (attestor : Address) (success : Bool) : Event :=
  ⟨ownerEnv, 1, ⟨5⟩, .recordAttestorPerformance 1 attestor success 1⟩

def recorded (s : State) (attestor : Address) : State :=
  s.put (.attestorPerf 1 attestor) ⟨1, 1, 1, 7⟩

/-- Three attestors with one good answer each. -/
def threeRecorded : State := recorded (recorded (recorded .empty ⟨11⟩) ⟨12⟩) ⟨13⟩

/-- One attestor answers, another one fails every second time, a third one always. -/
def unequallyRecorded : State :=
  ((recorded (recorded .empty ⟨11⟩) ⟨12⟩).put (.attestorPerf 1 ⟨12⟩) ⟨2, 1, 2, 7⟩).put
    (.attestorPerf 1 ⟨13⟩) ⟨1, 0, 1, 7⟩

theorem step_recorded : Step .empty (answer ⟨11⟩ true) (recorded .empty ⟨11⟩) := rfl

theorem step_recorded_second : Step (recorded .empty ⟨11⟩) (answer ⟨12⟩ true)
    (recorded (recorded .empty ⟨11⟩) ⟨12⟩) := rfl

theorem reachable_unequally : Reachable unequallyRecorded :=
  ⟨[answer ⟨13⟩ false, answer ⟨12⟩ false, answer ⟨12⟩ true, answer ⟨11⟩ true],
    .next (.next (.next (.next .start step_recorded) step_recorded_second) rfl) rfl⟩

/-- Scores of a million, half of one and none weigh two thirds, one third and nothing; the last
attestor, who has a score, takes the remainder. -/
theorem unequal_weights_exact : weightsOf unequallyRecorded 1 [⟨13⟩, ⟨11⟩, ⟨12⟩] =
      [⟨⟨13⟩, 0⟩, ⟨⟨11⟩, 6666⟩, ⟨⟨12⟩, 3334⟩] ∧
    ∃ ws, calculateOptimalWeights 1 [⟨13⟩, ⟨11⟩, ⟨12⟩] ownerEnv unequallyRecorded =
        .ok (ws, unequallyRecorded) ∧
      WeightsExact unequallyRecorded 1 [⟨13⟩, ⟨11⟩, ⟨12⟩] ws := by
  refine ⟨rfl, (weights_exact_iff reachable_unequally ownerEnv 1 [⟨13⟩, ⟨11⟩, ⟨12⟩]
    (List.cons_ne_nil _ _) (by decide)).mpr ⟨fun a ha m hm => ?_, .inl ?_⟩⟩
  · have hall : ∀ a ∈ ([⟨13⟩, ⟨11⟩, ⟨12⟩] : List Address),
        ∀ m ∈ metricsOf unequallyRecorded 1 a, m.successfulResponses ≤ 18446744073709 := by
      decide
    exact hall a ha m hm
  · show 0 < scoreOf unequallyRecorded 1 ⟨12⟩
    decide

/-- Beside three attestors of the same score, a fourth without a record is given what the rounding
leaves. -/
theorem last_weighs_without_score : Reachable threeRecorded ∧
    metricsOf threeRecorded 1 ⟨14⟩ = none ∧
    calculateOptimalWeights 1 [⟨11⟩, ⟨12⟩, ⟨13⟩, ⟨14⟩] ownerEnv threeRecorded =
      .ok ([⟨⟨11⟩, 3333⟩, ⟨⟨12⟩, 3333⟩, ⟨⟨13⟩, 3333⟩, ⟨⟨14⟩, 1⟩], threeRecorded) ∧
    ¬ ∃ ws, calculateOptimalWeights 1 [⟨11⟩, ⟨12⟩, ⟨13⟩, ⟨14⟩] ownerEnv threeRecorded =
        .ok (ws, threeRecorded) ∧
      WeightsExact threeRecorded 1 [⟨11⟩, ⟨12⟩, ⟨13⟩, ⟨14⟩] ws := by
  have hthird : Step (recorded (recorded .empty ⟨11⟩) ⟨12⟩) (answer ⟨13⟩ true) threeRecorded := rfl
  have hweights : calculateOptimalWeights 1 [⟨11⟩, ⟨12⟩, ⟨13⟩, ⟨14⟩] ownerEnv threeRecorded =
      .ok ([⟨⟨11⟩, 3333⟩, ⟨⟨12⟩, 3333⟩, ⟨⟨13⟩, 3333⟩, ⟨⟨14⟩, 1⟩], threeRecorded) := rfl
  refine ⟨⟨_, .next (.next (.next .start step_recorded) step_recorded_second) hthird⟩, rfl,
    hweights, ?_⟩
  rintro ⟨ws, hok, hexact⟩
  obtain ⟨rfl, -⟩ := Prod.mk.inj (Except.ok.inj (hweights.symm.trans hok))
  have hnothing := hexact.unscored ⟨⟨11⟩, by simp, by decide⟩ ⟨⟨14⟩, 1⟩ (by simp) rfl
  exact absurd hnothing (by decide)

end Heirloom.Modules.Performance
