import Mathlib.Algebra.Order.Field.Rat
import Mathlib.Logic.Function.Basic
import Heirloom.Lib.Binary64

/-!
# Health of webhook endpoints

Every delivery attempt is recorded for its endpoint, as a running average and as a count of the
failures in a row. The weight of an endpoint is a product of doubles; deliveries go to
endpoints with a weight above 0.

Results:
1. `shouldRoute_eq_some_true_iff`: in double precision, too, the weight is above 0 exactly if
   there have been fewer than five failures in a row.
-/

namespace Heirloom.Backend.HealthRouting

open Binary64

def slowStartRequests : Nat := 10

def unhealthyThreshold : Nat := 5

def ewmaAlpha : ℚ := nearest (3 / 10)

def u32Max : Nat := 2 ^ 32 - 1

/-! ## Records -/

/-- The record of an endpoint. That no count exceeds the requests is part of it. -/
structure EndpointHealth where
  endpoint : String
  successRateEwma : ℚ
  totalRequests : Nat
  totalSuccesses : Nat
  totalFailures : Nat
  consecutiveFailures : Nat
  slowStartRequestsServed : Nat
  weight : ℚ
  firstSeen : Nat
  lastUpdated : Nat
  counts : totalSuccesses + totalFailures = totalRequests ∧ consecutiveFailures ≤ totalFailures

def slowStartWeight (requestsServed : Nat) : ℚ :=
  if slowStartRequests ≤ requestsServed then 1
  else add (nearest (1 / 10)) (mul (nearest (9 / 10)) (div requestsServed slowStartRequests))

namespace EndpointHealth

def new (endpoint : String) (now : Nat) : EndpointHealth :=
  ⟨endpoint, 1, 0, 0, 0, 0, 0, slowStartWeight 0, now, now, rfl, Nat.le_refl 0⟩

def isHealthy (h : EndpointHealth) : Bool := decide (h.consecutiveFailures < unhealthyThreshold)

/-- The running average after an outcome. -/
def nextEwma (h : EndpointHealth) (success : Bool) : ℚ :=
  add (mul ewmaAlpha (if success then 1 else 0)) (mul (sub 1 ewmaAlpha) h.successRateEwma)

def nextFailures (h : EndpointHealth) (success : Bool) : Nat :=
  if success then 0 else h.consecutiveFailures + 1

/-- Requests are counted up to the end of the slow start. -/
def nextServed (h : EndpointHealth) : Nat :=
  if h.slowStartRequestsServed < slowStartRequests then h.slowStartRequestsServed + 1
  else h.slowStartRequestsServed

def record (h : EndpointHealth) (now : Nat) (success : Bool) : EndpointHealth :=
  { h with
    totalRequests := h.totalRequests + 1
    totalSuccesses := if success then h.totalSuccesses + 1 else h.totalSuccesses
    totalFailures := if success then h.totalFailures else h.totalFailures + 1
    consecutiveFailures := h.nextFailures success
    successRateEwma := h.nextEwma success
    slowStartRequestsServed := h.nextServed
    weight := mul (slowStartWeight h.nextServed)
      (if h.nextFailures success < unhealthyThreshold then max (h.nextEwma success) 0 else 0)
    lastUpdated := now
    counts := by
      obtain ⟨htotal, hfailures⟩ := h.counts
      unfold nextFailures
      cases success <;> simp <;> omega }

end EndpointHealth

/-- The records, and whether a panic has poisoned their lock. -/
structure HealthRoutingState where
  store : String → Option EndpointHealth
  poisoned : Bool

namespace HealthRoutingState

def new : HealthRoutingState := ⟨fun _ => none, false⟩

/-- The state, and whether the call returns. The sum of the requests is checked; it is the first
to overflow, and the panic poisons the lock. -/
def recordOutcome (s : HealthRoutingState) (now : Nat) (endpoint : String) (success : Bool) :
    HealthRoutingState × Bool :=
  if s.poisoned then (s, false)
  else
    let health := (s.store endpoint).getD (.new endpoint now)
    if health.totalRequests < u32Max then
      ({ s with
        store := Function.update s.store endpoint (some (health.record now success)) }, true)
    else ({ s with poisoned := true }, false)

/-- `None` stands for a panic. -/
def routingWeight (s : HealthRoutingState) (endpoint : String) : Option ℚ :=
  if s.poisoned then none
  else some ((s.store endpoint).elim (slowStartWeight 0) (·.weight))

def shouldRoute (s : HealthRoutingState) (endpoint : String) : Option Bool :=
  (s.routingWeight endpoint).map fun weight => decide (0 < weight)

/-- There are fewer than five failures in a row on record. -/
def Healthy (s : HealthRoutingState) (endpoint : String) : Prop :=
  ∀ h, s.store endpoint = some h → h.isHealthy = true

/-- Another request of the endpoint can be counted. -/
def Countable (s : HealthRoutingState) (endpoint : String) : Prop :=
  ∀ h, s.store endpoint = some h → h.totalRequests < u32Max

end HealthRoutingState

/-! ## Weights -/

section Weights

variable {h : EndpointHealth} {now served : Nat} {success : Bool}

theorem ewmaAlpha_ge : (2 : ℚ) ^ (-2 : ℤ) ≤ ewmaAlpha :=
  pow_le_nearest (by norm_num) (by norm_num)

theorem half_le_complement : (2 : ℚ) ^ (-1 : ℤ) ≤ sub 1 ewmaAlpha := by
  have halpha : ewmaAlpha ≤ (2 : ℚ) ^ (-1 : ℤ) :=
    nearest_le_pow (by norm_num) (by norm_num) (by norm_num)
  refine pow_le_nearest (by norm_num) ?_
  norm_num at halpha ⊢
  linarith

theorem slowStartWeight_ge : (2 : ℚ) ^ (-4 : ℤ) ≤ slowStartWeight served := by
  unfold slowStartWeight
  split
  · norm_num
  · have htenth : (2 : ℚ) ^ (-4 : ℤ) ≤ nearest (1 / 10) :=
      pow_le_nearest (by norm_num) (by norm_num)
    have hserved : 0 ≤ mul (nearest (9 / 10)) (div served slowStartRequests) :=
      nearest_nonneg (mul_nonneg (nearest_nonneg (by norm_num))
        (nearest_nonneg (div_nonneg (Nat.cast_nonneg _) (Nat.cast_nonneg _))))
    exact pow_le_nearest (by norm_num) (le_add_of_le_of_nonneg htenth hserved)

/-- What the average is at least after so many failures in a row, and what the weight says. -/
structure EndpointHealth.Sound (h : EndpointHealth) : Prop where
  nonneg : 0 ≤ h.successRateEwma
  rate : h.consecutiveFailures < unhealthyThreshold →
    (2 : ℚ) ^ (-2 - (h.consecutiveFailures : ℤ)) ≤ h.successRateEwma
  weight : 0 < h.weight ↔ h.isHealthy = true

theorem nextEwma_nonneg (hnonneg : 0 ≤ h.successRateEwma) : 0 ≤ h.nextEwma success := by
  have halpha : 0 ≤ ewmaAlpha := nearest_nonneg (by norm_num)
  have hcomplement : 0 ≤ sub 1 ewmaAlpha := (zpow_nonneg (by norm_num) _).trans half_le_complement
  refine nearest_nonneg (add_nonneg (nearest_nonneg (mul_nonneg halpha ?_))
    (nearest_nonneg (mul_nonneg hcomplement hnonneg)))
  split <;> norm_num

/-- A success lifts the average to at least a quarter. -/
theorem nextEwma_success (hnonneg : 0 ≤ h.successRateEwma) :
    (2 : ℚ) ^ (-2 : ℤ) ≤ h.nextEwma true := by
  have hcomplement : 0 ≤ sub 1 ewmaAlpha := (zpow_nonneg (by norm_num) _).trans half_le_complement
  have hsuccess : (2 : ℚ) ^ (-2 : ℤ) ≤ mul ewmaAlpha 1 := by
    refine pow_le_nearest (by norm_num) ?_
    rw [mul_one]
    exact ewmaAlpha_ge
  exact pow_le_nearest (by norm_num)
    (le_add_of_le_of_nonneg hsuccess (nearest_nonneg (mul_nonneg hcomplement hnonneg)))

/-- A failure takes at most half of the average. -/
theorem nextEwma_failure {n : ℤ} (hn : -1073 ≤ n) (hrate : (2 : ℚ) ^ n ≤ h.successRateEwma) :
    (2 : ℚ) ^ (n - 1) ≤ h.nextEwma false := by
  have hhalf : (2 : ℚ) ^ (n - 1) ≤ mul (sub 1 ewmaAlpha) h.successRateEwma := by
    refine pow_le_nearest (by omega) ?_
    calc (2 : ℚ) ^ (n - 1) = 2 ^ (-1 : ℤ) * 2 ^ n := by
          rw [← zpow_add₀ (by norm_num)]
          congr 1
          omega
      _ ≤ sub 1 ewmaAlpha * h.successRateEwma :=
          mul_le_mul half_le_complement hrate (zpow_nonneg (by norm_num) _)
            ((zpow_nonneg (by norm_num) _).trans half_le_complement)
  refine pow_le_nearest (by omega) ?_
  have hfailure : mul ewmaAlpha 0 = 0 := by
    unfold mul
    rw [mul_zero, nearest_zero]
  show _ ≤ mul ewmaAlpha 0 + _
  rw [hfailure, zero_add]
  exact hhalf

/-- Recording an outcome keeps the average in bounds and the weight right. -/
theorem sound_record (hnonneg : 0 ≤ h.successRateEwma)
    (hrate : h.consecutiveFailures < unhealthyThreshold →
      (2 : ℚ) ^ (-2 - (h.consecutiveFailures : ℤ)) ≤ h.successRateEwma) :
    (h.record now success).Sound := by
  have hnext : h.nextFailures success < unhealthyThreshold →
      (2 : ℚ) ^ (-2 - (h.nextFailures success : ℤ)) ≤ h.nextEwma success := by
    intro hlt
    cases success with
    | true => exact nextEwma_success hnonneg
    | false =>
        have hlt' : h.consecutiveFailures + 1 < unhealthyThreshold := hlt
        have hfive : unhealthyThreshold = 5 := rfl
        have hfailure := nextEwma_failure (n := -2 - (h.consecutiveFailures : ℤ)) (by omega)
          (hrate (by omega))
        refine le_trans (le_of_eq ?_) hfailure
        congr 1
        show -2 - ((h.consecutiveFailures + 1 : Nat) : ℤ) = _
        omega
  refine ⟨nextEwma_nonneg hnonneg, hnext, ?_⟩
  show 0 < mul _ (if h.nextFailures success < unhealthyThreshold then _ else _) ↔
    decide (h.nextFailures success < unhealthyThreshold) = true
  by_cases hhealthy : h.nextFailures success < unhealthyThreshold
  · rw [if_pos hhealthy]
    refine iff_of_true ?_ (decide_eq_true hhealthy)
    have hfive : unhealthyThreshold = 5 := rfl
    have hewma : (2 : ℚ) ^ (-6 : ℤ) ≤ max (h.nextEwma success) 0 :=
      (zpow_le_zpow_right₀ (by norm_num) (by omega)).trans
        ((hnext hhealthy).trans (le_max_left _ _))
    have hweight : (2 : ℚ) ^ (-10 : ℤ) ≤
        mul (slowStartWeight h.nextServed) (max (h.nextEwma success) 0) := by
      refine pow_le_nearest (by norm_num) ?_
      calc (2 : ℚ) ^ (-10 : ℤ) = 2 ^ (-4 : ℤ) * 2 ^ (-6 : ℤ) := by norm_num
        _ ≤ _ := mul_le_mul slowStartWeight_ge hewma (zpow_nonneg (by norm_num) _)
            ((zpow_nonneg (by norm_num) _).trans slowStartWeight_ge)
    exact (zpow_pos (by norm_num) _).trans_le hweight
  · rw [if_neg hhealthy]
    refine iff_of_false ?_ (by simpa using hhealthy)
    unfold mul
    rw [mul_zero, nearest_zero]
    exact lt_irrefl 0

end Weights

/-! ## States -/

namespace HealthRoutingState

/-- The invariant of the records. -/
def Sound (s : HealthRoutingState) : Prop := ∀ endpoint h, s.store endpoint = some h → h.Sound

section States

variable {s : HealthRoutingState} {endpoint e : String} {now : Nat} {success : Bool}

theorem sound_new : new.Sound := fun _ _ h => nomatch h

theorem Sound.recordOutcome (hs : s.Sound) : (s.recordOutcome now endpoint success).1.Sound := by
  unfold HealthRoutingState.recordOutcome
  split
  · exact hs
  · dsimp only
    split
    · intro e h he
      dsimp only at he
      by_cases heq : e = endpoint
      · subst heq
        rw [Function.update_self] at he
        obtain rfl := Option.some.inj he
        cases hfound : s.store e with
        | none =>
            exact sound_record (by norm_num [EndpointHealth.new])
              fun _ => by norm_num [EndpointHealth.new]
        | some h => exact sound_record (hs e h hfound).nonneg (hs e h hfound).rate
      · rw [Function.update_of_ne heq] at he
        exact hs e h he
    · exact hs

/-- Endpoints are routed around from five failures in a row on. -/
theorem shouldRoute_eq_some_true_iff (hs : s.Sound) :
    s.shouldRoute endpoint = some true ↔ s.poisoned = false ∧ s.Healthy endpoint := by
  unfold shouldRoute routingWeight Healthy
  cases hp : s.poisoned with
  | true => simp
  | false =>
      cases hfound : s.store endpoint with
      | none =>
          have hstart : 0 < slowStartWeight 0 :=
            (zpow_pos (by norm_num) _).trans_le slowStartWeight_ge
          simp [hstart]
      | some h => simp [(hs endpoint h hfound).weight]

theorem shouldRoute_eq_none_iff : s.shouldRoute endpoint = none ↔ s.poisoned = true := by
  unfold shouldRoute routingWeight
  cases s.poisoned <;> simp

/-- A record can be made unless the lock is poisoned or the count is full. -/
theorem recordOutcome_returns_iff : (s.recordOutcome now endpoint success).2 = true ↔
    s.poisoned = false ∧ s.Countable endpoint := by
  unfold HealthRoutingState.recordOutcome Countable
  cases hp : s.poisoned with
  | true => simp
  | false =>
      cases hfound : s.store endpoint with
      | none => simp [EndpointHealth.new, u32Max]
      | some h =>
          by_cases hcount : h.totalRequests < u32Max <;> simp [hcount]

/-- Where it cannot, the lock is poisoned afterwards. -/
theorem poisoned_of_recordOutcome (h : (s.recordOutcome now endpoint success).2 = false) :
    (s.recordOutcome now endpoint success).1.poisoned = true := by
  unfold HealthRoutingState.recordOutcome at h ⊢
  split
  · next hp => exact hp
  · next hp =>
      rw [if_neg hp] at h
      dsimp only at h ⊢
      split
      · next hcount =>
          rw [if_pos hcount] at h
          cases h
      · rfl

theorem poisoned_recordOutcome (h : (s.recordOutcome now endpoint success).2 = true) :
    (s.recordOutcome now endpoint success).1.poisoned = s.poisoned := by
  unfold HealthRoutingState.recordOutcome at h ⊢
  split
  · rfl
  · next hp =>
      rw [if_neg hp] at h
      dsimp only at h ⊢
      split
      · rfl
      · next hcount =>
          rw [if_neg hcount] at h
          cases h

/-- Other endpoints are not touched. -/
theorem recordOutcome_store_ne (hne : e ≠ endpoint) :
    (s.recordOutcome now endpoint success).1.store e = s.store e := by
  unfold HealthRoutingState.recordOutcome
  split
  · rfl
  · dsimp only
    split
    · exact Function.update_of_ne hne _ _
    · rfl

end States

end HealthRoutingState

end Heirloom.Backend.HealthRouting
