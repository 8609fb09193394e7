import Mathlib.Data.List.Induction
import Mathlib.Logic.Function.Basic
import Heirloom.Backend.EventSourcing

/-!
# Sagas

A saga runs its steps in order and repeats a step that fails. When a step has failed once
more often than it may be repeated, the completed steps are undone from the last to the
first. The functions of a saga act on the rest of the process, which is any type here; the
calls that are made to them are kept, the oldest first.

Results:
1. `backward_recovery_iff`: a saga makes the calls it should and ends with the right status
   exactly if no step that may be repeated `u32::MAX` times fails that often: its count of
   attempts overflows then.
2. `bounded_recovers`: all sagas without such a step recover.
3. `overflowing_saga`: a saga whose completed step is not undone for this reason.
-/

namespace Heirloom.Backend.Sagas

/-! ## Steps and records -/

def u32Max : Nat := 2 ^ 32 - 1

variable {W : Type}

/-- A forward action changes the rest of the process. -/
structure SagaStep (W : Type) where
  name : String
  forward : W → Except String Value × W
  maxRetries : UInt32

abbrev CompensationFn (W : Type) := Value → W → Except String Unit × W

/-- The compensations by the names of their steps. -/
abbrev CompensationRegistry (W : Type) := String → Option (CompensationFn W)

namespace CompensationRegistry

def register (registry : CompensationRegistry W) (stepName : String)
    (compensation : CompensationFn W) : CompensationRegistry W :=
  Function.update registry stepName (some compensation)

def has (registry : CompensationRegistry W) (stepName : String) : Bool :=
  (registry stepName).isSome

end CompensationRegistry

inductive SagaStepStatus
  | completed
  | failed
  | compensated
  | compensationFailed
  | notStarted
deriving DecidableEq

inductive SagaStatus
  | completed
  | compensated
  | compensationFailed
deriving DecidableEq

structure SagaStepRecord where
  name : String
  status : SagaStepStatus
  attempts : Nat
  output : Option Value
  error : Option String

structure SagaExecution where
  sagaName : String
  status : SagaStatus
  steps : List SagaStepRecord

structure Saga (W : Type) where
  name : String
  steps : List (SagaStep W)
  compensations : CompensationRegistry W

/-! ## Execution -/

/-- A call of a forward action or of a compensation, with its result. -/
inductive Call
  | forward (name : String) (result : Except String Value)
  | compensate (name : String) (output : Value) (result : Except String Unit)

/-- The rest of the process, and the calls made so far. -/
structure Traced (W : Type) where
  world : W
  calls : List Call

def SagaStep.call (step : SagaStep W) (t : Traced W) : Except String Value × Traced W :=
  let (result, world) := step.forward t.world
  (result, ⟨world, t.calls ++ [.forward step.name result]⟩)

/-- The loop of one step after some attempts. There is no result if the count overflows. -/
def SagaStep.attempt (step : SagaStep W) (attempts : Nat) (t : Traced W) :
    Option (Nat × Except String Value × Traced W) :=
  if u32Max ≤ attempts then none
  else
    match step.call t with
    | (.ok output, t') => some (attempts + 1, .ok output, t')
    | (.error err, t') =>
        if step.maxRetries.toNat < attempts + 1 then some (attempts + 1, .error err, t')
        else step.attempt (attempts + 1) t'
termination_by u32Max - attempts

def SagaStep.record (step : SagaStep W) : SagaStepRecord :=
  ⟨step.name, .notStarted, 0, none, none⟩

/-- The loop over the steps from an index on. It returns the index of the step that failed. -/
def forwardSteps : List (SagaStep W) → Nat → List SagaStepRecord → Traced W →
    Option (List SagaStepRecord × Option Nat × Traced W)
  | [], _, records, t => some (records, none, t)
  | step :: steps, idx, records, t =>
      match step.attempt 0 t with
      | none => none
      | some (attempts, .ok output, t') =>
          forwardSteps steps (idx + 1)
            (records.modify idx fun record =>
              { record with attempts := attempts, status := .completed, output := some output })
            t'
      | some (attempts, .error err, t') =>
          some
            (records.modify idx fun record =>
              { record with attempts := attempts, status := .failed, error := some err },
            some idx, t')

/-- What undoing a completed step leaves: its record, and whether its compensation failed. -/
def compensate (compensations : CompensationRegistry W) (record : SagaStepRecord)
    (t : Traced W) : SagaStepRecord × Bool × Traced W :=
  let output := record.output.getD .null
  match compensations record.name with
  | none => (record, false, t)
  | some compensation =>
      let (result, world) := compensation output t.world
      let t' := ⟨world, t.calls ++ [.compensate record.name output result]⟩
      match result with
      | .ok () => ({ record with status := .compensated }, false, t')
      | .error err =>
          ({ record with status := .compensationFailed, error := some err }, true, t')

/-- The loop over the indices below one, from the last to the first. There is no result if an
index is out of range. -/
def backwardSteps (compensations : CompensationRegistry W) :
    Nat → List SagaStepRecord → Bool → Traced W →
      Option (List SagaStepRecord × Bool × Traced W)
  | 0, records, anyCompensationFailed, t => some (records, anyCompensationFailed, t)
  | idx + 1, records, anyCompensationFailed, t =>
      match records[idx]? with
      | none => none
      | some record =>
          if record.status ≠ .completed then
            backwardSteps compensations idx records anyCompensationFailed t
          else
            let (record', failed, t') := compensate compensations record t
            backwardSteps compensations idx (records.set idx record')
              (anyCompensationFailed || failed) t'

def Saga.execute (saga : Saga W) (t : Traced W) : Option (SagaExecution × Traced W) :=
  match forwardSteps saga.steps 0 (saga.steps.map SagaStep.record) t with
  | none => none
  | some (records, none, t') => some (⟨saga.name, .completed, records⟩, t')
  | some (records, some failedIdx, t') =>
      match backwardSteps saga.compensations failedIdx records false t' with
      | none => none
      | some (records, anyCompensationFailed, t'') =>
          some (⟨saga.name, if anyCompensationFailed then .compensationFailed else .compensated,
            records⟩, t'')

/-! ## What a saga is for -/

/-- The step fails with these errors, called again and again. -/
inductive Fails (step : SagaStep W) : List String → W → W → Prop
  | none {w : W} : Fails step [] w w
  | again {err : String} {errors : List String} {w v u : W} :
      step.forward w = (.error err, v) → Fails step errors v u → Fails step (err :: errors) w u

/-- A step which may be repeated `u32::MAX` times is reached and fails that often. -/
inductive Overflows : List (SagaStep W) → W → Prop
  | here {step : SagaStep W} {steps : List (SagaStep W)} {errors : List String} {w v : W} :
      step.maxRetries.toNat = u32Max → Fails step errors w v → errors.length = u32Max →
      Overflows (step :: steps) w
  | later {step : SagaStep W} {steps : List (SagaStep W)} {errors : List String}
      {output : Value} {w v u : W} :
      Fails step errors w v → errors.length ≤ step.maxRetries.toNat →
      step.forward v = (.ok output, u) → Overflows steps u → Overflows (step :: steps) w

/-- A completed step, with the errors before its output. -/
structure Done (W : Type) where
  step : SagaStep W
  errors : List String
  output : Value

def failedCalls (step : SagaStep W) (errors : List String) : List Call :=
  errors.map fun err => .forward step.name (.error err)

def Done.calls (done : Done W) : List Call :=
  failedCalls done.step done.errors ++ [.forward done.step.name (.ok done.output)]

/-- A completed step whose compensation has been called, with its result. -/
structure Undone (W : Type) where
  done : Done W
  result : Except String Unit

def Undone.call (undone : Undone W) : Call :=
  .compensate undone.done.step.name undone.done.output undone.result

def Undone.failed (undone : Undone W) : Bool :=
  match undone.result with
  | .ok _ => false
  | .error _ => true

def Done.InTime (done : Done W) : Prop := done.errors.length ≤ done.step.maxRetries.toNat

/-- The calls that a saga makes when it runs as documented, and the status it ends with. -/
inductive Recovers (saga : Saga W) : List Call → SagaStatus → Prop
  | completed {done : List (Done W)} :
      done.map Done.step = saga.steps → (∀ d ∈ done, d.InTime) →
      Recovers saga (done.flatMap Done.calls) .completed
  | recovered {done : List (Done W)} {step : SagaStep W} {steps : List (SagaStep W)}
      {errors : List String} {undone : List (Undone W)} :
      done.map Done.step ++ step :: steps = saga.steps → (∀ d ∈ done, d.InTime) →
      errors.length = step.maxRetries.toNat + 1 →
      undone.map Undone.done =
        done.reverse.filter (fun d => CompensationRegistry.has saga.compensations d.step.name) →
      Recovers saga
        (done.flatMap Done.calls ++ failedCalls step errors ++ undone.map Undone.call)
        (if undone.any Undone.failed then .compensationFailed else .compensated)

/-! ## The attempts of a step -/

variable {step : SagaStep W} {steps : List (SagaStep W)} {errors : List String}
  {w v u : W} {calls : List Call} {n : Nat}

theorem Fails.snoc {err : String} (h : Fails step errors w v)
    (hlast : step.forward v = (.error err, u)) : Fails step (errors ++ [err]) w u := by
  induction h with
  | none => exact .again hlast .none
  | again hcall _ ih => exact .again hcall (ih hlast)

/-- Calls in a row succeed at last, or all fail. -/
theorem succeeds_or_fails (step : SagaStep W) (w : W) (n : Nat) :
    (∃ errors v output u, Fails step errors w v ∧ errors.length < n ∧
      step.forward v = (.ok output, u)) ∨
    ∃ errors v, Fails step errors w v ∧ errors.length = n := by
  induction n with
  | zero => exact .inr ⟨[], w, .none, rfl⟩
  | succ n ih =>
      rcases ih with ⟨errors, v, output, u, hfails, hlt, hok⟩ | ⟨errors, v, hfails, hlength⟩
      · exact .inl ⟨errors, v, output, u, hfails, Nat.lt_succ_of_lt hlt, hok⟩
      · rcases hcall : step.forward v with ⟨err | output, u⟩
        · exact .inr ⟨errors ++ [err], u, hfails.snoc hcall, by simp [hlength]⟩
        · exact .inl ⟨errors, v, output, u, hfails, hlength ▸ Nat.lt_succ_self n, hcall⟩

theorem maxRetries_le (step : SagaStep W) : step.maxRetries.toNat ≤ u32Max :=
  Nat.le_sub_one_of_lt step.maxRetries.toNat_lt

theorem attempt_overflow {t : Traced W} : step.attempt u32Max t = none := by
  unfold SagaStep.attempt
  exact if_pos (Nat.le_refl _)

theorem attempt_ok {output : Value} (hn : n < u32Max) (h : step.forward w = (.ok output, v)) :
    step.attempt n ⟨w, calls⟩ =
      some (n + 1, .ok output, ⟨v, calls ++ [.forward step.name (.ok output)]⟩) := by
  unfold SagaStep.attempt
  rw [if_neg (Nat.not_le.mpr hn)]
  simp only [SagaStep.call, h]

theorem attempt_error {err : String} (hn : n < u32Max)
    (h : step.forward w = (.error err, v)) :
    step.attempt n ⟨w, calls⟩ =
      if step.maxRetries.toNat < n + 1 then
        some (n + 1, .error err, ⟨v, calls ++ failedCalls step [err]⟩)
      else step.attempt (n + 1) ⟨v, calls ++ failedCalls step [err]⟩ := by
  conv_lhs => unfold SagaStep.attempt
  rw [if_neg (Nat.not_le.mpr hn)]
  simp only [SagaStep.call, h]
  rfl

/-- Failures up to the number of repetitions only lead on. -/
theorem attempt_fails (h : Fails step errors w v)
    (hlength : n + errors.length ≤ step.maxRetries.toNat) :
    step.attempt n ⟨w, calls⟩ =
      step.attempt (n + errors.length) ⟨v, calls ++ failedCalls step errors⟩ := by
  induction h generalizing n calls with
  | none => simp [failedCalls]
  | again hcall _ ih =>
      rename_i err errors _ _ _
      rw [List.length_cons] at hlength ⊢
      have hn : n < u32Max := by
        have := maxRetries_le step
        omega
      rw [attempt_error hn hcall, if_neg (by omega), ih (by omega)]
      simp [failedCalls, Nat.add_assoc, Nat.add_comm 1]

theorem attempt_completes {output : Value} (h : Fails step errors w v)
    (hlength : errors.length ≤ step.maxRetries.toNat) (hlt : errors.length < u32Max)
    (hok : step.forward v = (.ok output, u)) :
    step.attempt 0 ⟨w, calls⟩ =
      some (errors.length + 1, .ok output, ⟨u, calls ++ (Done.mk step errors output).calls⟩) := by
  rw [attempt_fails h (by simpa using hlength), attempt_ok (by simpa using hlt) hok]
  simp [Done.calls]

theorem attempt_exhausts {err : String} (h : Fails step errors w v)
    (hlength : errors.length = step.maxRetries.toNat) (hmax : step.maxRetries.toNat ≠ u32Max)
    (herror : step.forward v = (.error err, u)) :
    step.attempt 0 ⟨w, calls⟩ = some (errors.length + 1, .error err,
      ⟨u, calls ++ failedCalls step (errors ++ [err])⟩) := by
  have hlt : errors.length < u32Max := by
    rw [hlength]
    exact Nat.lt_of_le_of_ne (maxRetries_le step) hmax
  rw [attempt_fails h (by simp [hlength]), Nat.zero_add, attempt_error hlt herror,
    if_pos (by simp [hlength])]
  simp [failedCalls]

theorem attempt_overflows (h : Fails step errors w v)
    (hmax : step.maxRetries.toNat = u32Max) (hlength : errors.length = u32Max) :
    step.attempt 0 ⟨w, calls⟩ = none := by
  rw [attempt_fails h (by simp [hmax, hlength]), hlength, Nat.zero_add, attempt_overflow]

/-! ## The steps of a saga -/

def Done.record (done : Done W) : SagaStepRecord :=
  ⟨done.step.name, .completed, done.errors.length + 1, some done.output, none⟩

theorem modify_length {α : Type} (pre post : List α) (a : α) (f : α → α) :
    (pre ++ a :: post).modify pre.length f = pre ++ f a :: post := by
  rw [List.modify_eq_take_cons_drop (by simp)]
  simp

/-- All steps from one on complete. -/
def Completes (steps : List (SagaStep W)) (pre : List SagaStepRecord) (t : Traced W) : Prop :=
  ∃ (done : List (Done W)) (v : W), done.map Done.step = steps ∧ (∀ d ∈ done, d.InTime) ∧
    forwardSteps steps pre.length (pre ++ steps.map SagaStep.record) t =
      some (pre ++ done.map Done.record, none, ⟨v, t.calls ++ done.flatMap Done.calls⟩)

/-- One of the steps from one on exhausts its attempts, and those before it complete. -/
def Exhausts (steps : List (SagaStep W)) (pre : List SagaStepRecord) (t : Traced W) : Prop :=
  ∃ (done : List (Done W)) (step : SagaStep W) (later : List (SagaStep W))
    (errors : List String) (post : List SagaStepRecord) (v : W),
    done.map Done.step ++ step :: later = steps ∧ (∀ d ∈ done, d.InTime) ∧
    errors.length = step.maxRetries.toNat + 1 ∧
    forwardSteps steps pre.length (pre ++ steps.map SagaStep.record) t =
      some (pre ++ done.map Done.record ++ post, some (pre.length + done.length),
        ⟨v, t.calls ++ (done.flatMap Done.calls ++ failedCalls step errors)⟩)

section Forward

variable {pre : List SagaStepRecord} {output : Value}

theorem forwardSteps_completed (steps : List (SagaStep W)) (pre : List SagaStepRecord)
    (calls : List Call) (h : Fails step errors w v) (hlength : errors.length ≤ step.maxRetries.toNat)
    (hlt : errors.length < u32Max) (hok : step.forward v = (.ok output, u)) :
    forwardSteps (step :: steps) pre.length (pre ++ (step :: steps).map SagaStep.record)
        ⟨w, calls⟩ =
      forwardSteps steps (pre ++ [(Done.mk step errors output).record]).length
        (pre ++ [(Done.mk step errors output).record] ++ steps.map SagaStep.record)
        ⟨u, calls ++ (Done.mk step errors output).calls⟩ := by
  conv_lhs => unfold forwardSteps
  rw [attempt_completes h hlength hlt hok, List.map_cons]
  simp only [modify_length, List.length_append, List.length_singleton, List.append_assoc,
    List.singleton_append]
  rfl

theorem forwardSteps_failed {err : String} (h : Fails step errors w v)
    (hlength : errors.length = step.maxRetries.toNat) (hmax : step.maxRetries.toNat ≠ u32Max)
    (herror : step.forward v = (.error err, u)) :
    ∃ post, forwardSteps (step :: steps) pre.length
        (pre ++ (step :: steps).map SagaStep.record) ⟨w, calls⟩ =
      some (pre ++ post, some pre.length,
        ⟨u, calls ++ failedCalls step (errors ++ [err])⟩) := by
  unfold forwardSteps
  rw [attempt_exhausts h hlength hmax herror, List.map_cons]
  simp only [modify_length]
  exact ⟨_, rfl⟩

/-- The steps that are left are those after a completed one. -/
theorem completes_cons {d : Done W} {t : Traced W} (hd : d.InTime) (hstep : d.step = step)
    (h : forwardSteps (step :: steps) pre.length
        (pre ++ (step :: steps).map SagaStep.record) t =
      forwardSteps steps (pre ++ [d.record]).length
        (pre ++ [d.record] ++ steps.map SagaStep.record) ⟨u, t.calls ++ d.calls⟩)
    (hrest : Completes steps (pre ++ [d.record]) ⟨u, t.calls ++ d.calls⟩) :
    Completes (step :: steps) pre t := by
  obtain ⟨done, v, hsteps, hall, hforward⟩ := hrest
  refine ⟨d :: done, v, by simp [hsteps, hstep], by simpa using ⟨hd, hall⟩, ?_⟩
  rw [h, hforward]
  simp

theorem exhausts_cons {d : Done W} {t : Traced W} (hd : d.InTime) (hstep : d.step = step)
    (h : forwardSteps (step :: steps) pre.length
        (pre ++ (step :: steps).map SagaStep.record) t =
      forwardSteps steps (pre ++ [d.record]).length
        (pre ++ [d.record] ++ steps.map SagaStep.record) ⟨u, t.calls ++ d.calls⟩)
    (hrest : Exhausts steps (pre ++ [d.record]) ⟨u, t.calls ++ d.calls⟩) :
    Exhausts (step :: steps) pre t := by
  obtain ⟨done, failing, later, errors, post, v, hsteps, hall, hlength, hforward⟩ := hrest
  refine ⟨d :: done, failing, later, errors, post, v, by simp [hsteps, hstep],
    by simpa using ⟨hd, hall⟩, hlength, ?_⟩
  rw [h, hforward]
  simp [Nat.add_assoc, Nat.add_comm 1]

theorem completes_or_exhausts (h : ¬ Overflows steps w) (pre : List SagaStepRecord)
    (calls : List Call) :
    Completes steps pre ⟨w, calls⟩ ∨ Exhausts steps pre ⟨w, calls⟩ := by
  induction steps generalizing w pre calls with
  | nil => exact .inl ⟨[], w, rfl, by simp, by simp [forwardSteps]⟩
  | cons step steps ih =>
      -- A step that completes leaves the rest to the induction hypothesis.
      have hnext {errors : List String} {v : W} {output : Value} {u : W}
          (hfails : Fails step errors w v) (hlength : errors.length ≤ step.maxRetries.toNat)
          (hlt : errors.length < u32Max) (hok : step.forward v = (.ok output, u)) :
          Completes (step :: steps) pre ⟨w, calls⟩ ∨ Exhausts (step :: steps) pre ⟨w, calls⟩ := by
        have hforward := forwardSteps_completed steps pre calls hfails hlength hlt hok
        have hrest : ¬ Overflows steps u := fun h' => h (.later hfails hlength hok h')
        rcases ih hrest (pre ++ [(Done.mk step errors output).record])
          (calls ++ (Done.mk step errors output).calls) with hall | hone
        · exact .inl (completes_cons (d := ⟨step, errors, output⟩) hlength rfl hforward hall)
        · exact .inr (exhausts_cons (d := ⟨step, errors, output⟩) hlength rfl hforward hone)
      rcases succeeds_or_fails step w step.maxRetries.toNat with
        ⟨errors, v, output, u, hfails, hlt, hok⟩ | ⟨errors, v, hfails, hlength⟩
      · exact hnext hfails (Nat.le_of_lt hlt) (Nat.lt_of_lt_of_le hlt (maxRetries_le step)) hok
      · have hmax : step.maxRetries.toNat ≠ u32Max := fun hmax =>
          h (.here hmax hfails (hlength.trans hmax))
        rcases hcall : step.forward v with ⟨err | output, u⟩
        · obtain ⟨post, hforward⟩ := forwardSteps_failed hfails hlength hmax hcall
          exact .inr ⟨[], step, steps, errors ++ [err], post, u, rfl, by simp,
            by simp [hlength], by simpa using hforward⟩
        · refine hnext hfails (Nat.le_of_eq hlength) ?_ hcall
          rw [hlength]
          exact Nat.lt_of_le_of_ne (maxRetries_le step) hmax

theorem forwardSteps_overflows (h : Overflows steps w) :
    forwardSteps steps pre.length (pre ++ steps.map SagaStep.record) ⟨w, calls⟩ = none := by
  induction h generalizing pre calls with
  | here hmax hfails hlength =>
      unfold forwardSteps
      rw [attempt_overflows hfails hmax hlength]
  | @later step steps errors output w v u hfails hlength hok _ ih =>
      rcases Nat.lt_or_ge errors.length u32Max with hlt | hge
      · rw [forwardSteps_completed _ _ _ hfails hlength hlt hok, ih]
      · have hmax := maxRetries_le step
        unfold forwardSteps
        rw [attempt_overflows hfails (by omega) (by omega)]

end Forward

/-! ## Undoing -/

section Backward

variable {compensations : CompensationRegistry W}

theorem backwardSteps_completed {done : List (Done W)} {d : Done W}
    {post : List SagaStepRecord} {any : Bool} {t : Traced W} :
    backwardSteps compensations (done ++ [d]).length ((done ++ [d]).map Done.record ++ post)
        any t =
      backwardSteps compensations done.length
        (done.map Done.record ++ (compensate compensations d.record t).1 :: post)
        (any || (compensate compensations d.record t).2.1)
        (compensate compensations d.record t).2.2 := by
  have hrecord : ((done ++ [d]).map Done.record ++ post)[done.length]? = some d.record := by
    simp
  have hset (r : SagaStepRecord) :
      ((done ++ [d]).map Done.record ++ post).set done.length r =
        done.map Done.record ++ r :: post := by
    simp
  rw [List.length_append, List.length_singleton]
  conv_lhs => unfold backwardSteps
  rw [hrecord]
  show (if d.record.status ≠ .completed then _ else _) = _
  rw [if_neg (by simp [Done.record])]
  rcases compensate compensations d.record t with ⟨record, failed, t'⟩
  simp only [hset]

def Undone.record (undone : Undone W) : SagaStepRecord :=
  match undone.result with
  | .ok () => { undone.done.record with status := .compensated }
  | .error err =>
      { undone.done.record with status := .compensationFailed, error := some err }

theorem compensate_none {d : Done W} {t : Traced W} (h : compensations d.step.name = none) :
    compensate compensations d.record t = (d.record, false, t) := by
  unfold compensate
  rw [show compensations d.record.name = none from h]

theorem compensate_some {d : Done W} {compensation : CompensationFn W} (w : W)
    (calls : List Call) (h : compensations d.step.name = some compensation) :
    ∃ (u : Undone W) (v : W), u.done = d ∧
      compensate compensations d.record ⟨w, calls⟩ =
        (u.record, u.failed, ⟨v, calls ++ [u.call]⟩) := by
  unfold compensate
  rw [show compensations d.record.name = some compensation from h]
  rcases hresult : compensation d.output w with ⟨err | _, v⟩
  · refine ⟨⟨d, .error err⟩, v, rfl, ?_⟩
    simp only [Done.record, Option.getD_some, hresult]
    rfl
  · refine ⟨⟨d, .ok ()⟩, v, rfl, ?_⟩
    simp only [Done.record, Option.getD_some, hresult]
    rfl

/-- The completed steps that have a compensation are undone from the last to the first. -/
theorem backwardSteps_undoes (compensations : CompensationRegistry W) (done : List (Done W))
    (post : List SagaStepRecord) (any : Bool) (w : W) (calls : List Call) :
    ∃ (undone : List (Undone W)) (records : List SagaStepRecord) (v : W),
      undone.map Undone.done = done.reverse.filter
        (fun d => CompensationRegistry.has compensations d.step.name) ∧
      backwardSteps compensations done.length (done.map Done.record ++ post) any ⟨w, calls⟩ =
        some (records, any || undone.any Undone.failed,
          ⟨v, calls ++ undone.map Undone.call⟩) := by
  induction done using List.reverseRecOn generalizing post any w calls with
  | nil => exact ⟨[], post, w, rfl, by simp [backwardSteps]⟩
  | append_singleton done d ih =>
      rw [backwardSteps_completed, List.reverse_concat]
      rcases hregistered : compensations d.step.name with _ | compensation
      · obtain ⟨undone, records, v, hundone, hbackward⟩ := ih (d.record :: post) any w calls
        refine ⟨undone, records, v, ?_, ?_⟩
        · rw [List.filter_cons_of_neg (by simp [CompensationRegistry.has, hregistered]), hundone]
        · rw [compensate_none hregistered, Bool.or_false, hbackward]
      · obtain ⟨u, v, rfl, hcompensate⟩ := compensate_some w calls hregistered
        obtain ⟨undone, records, x, hundone, hbackward⟩ :=
          ih (u.record :: post) (any || u.failed) v (calls ++ [u.call])
        refine ⟨u :: undone, records, x, ?_, ?_⟩
        · rw [List.filter_cons_of_pos (by simp [CompensationRegistry.has, hregistered]),
            List.map_cons, hundone]
        · rw [hcompensate, hbackward]
          simp [Bool.or_assoc]

end Backward

/-! ## Whole executions -/

theorem execute_recovers {saga : Saga W} (h : ¬ Overflows saga.steps w) :
    ∃ (execution : SagaExecution) (calls : List Call) (v : W),
      saga.execute ⟨w, []⟩ = some (execution, ⟨v, calls⟩) ∧
      Recovers saga calls execution.status := by
  unfold Saga.execute
  rcases completes_or_exhausts h [] [] with
    ⟨done, v, hsteps, hall, hforward⟩ |
    ⟨done, step, later, errors, post, v, hsteps, hall, hlength, hforward⟩
  · simp only [List.length_nil, List.nil_append] at hforward
    rw [hforward]
    exact ⟨_, _, v, rfl, .completed hsteps hall⟩
  · simp only [List.length_nil, List.nil_append, Nat.zero_add] at hforward
    obtain ⟨undone, records, x, hundone, hbackward⟩ := backwardSteps_undoes saga.compensations
      done post false v (done.flatMap Done.calls ++ failedCalls step errors)
    rw [hforward]
    simp only [hbackward]
    exact ⟨_, _, x, rfl, .recovered hsteps hall hlength hundone⟩

theorem execute_overflows {saga : Saga W} (h : Overflows saga.steps w) :
    saga.execute ⟨w, []⟩ = none := by
  have hforward (pre : List SagaStepRecord) : forwardSteps saga.steps pre.length
      (pre ++ saga.steps.map SagaStep.record) ⟨w, []⟩ = none := forwardSteps_overflows h
  unfold Saga.execute
  rw [show forwardSteps saga.steps 0 (saga.steps.map SagaStep.record) ⟨w, []⟩ = none from
    hforward []]

/-- The steps of a saga are called in order, each at most once more than it may be repeated
and none after the first that fails that often; then the completed steps that have a
compensation are undone from the last to the first. -/
theorem backward_recovery_iff (saga : Saga W) (w : W) :
    (∃ (execution : SagaExecution) (calls : List Call) (v : W),
      saga.execute ⟨w, []⟩ = some (execution, ⟨v, calls⟩) ∧
      Recovers saga calls execution.status) ↔
    ¬ Overflows saga.steps w := by
  constructor
  · intro ⟨_, _, _, hexecute, _⟩ h
    rw [execute_overflows h] at hexecute
    cases hexecute
  · exact execute_recovers

theorem not_overflows (h : ∀ step ∈ steps, step.maxRetries.toNat ≠ u32Max) :
    ¬ Overflows steps w := by
  intro hover
  induction hover with
  | here hmax _ _ => exact h _ List.mem_cons_self hmax
  | later _ _ _ _ ih => exact ih fun step hmem => h step (List.mem_cons_of_mem _ hmem)

/-- No outcomes keep a saga from recovering if no step may be repeated `u32::MAX` times. -/
theorem bounded_recovers {saga : Saga W}
    (h : ∀ step ∈ saga.steps, step.maxRetries.toNat ≠ u32Max) :
    ∃ (execution : SagaExecution) (calls : List Call) (v : W),
      saga.execute ⟨w, []⟩ = some (execution, ⟨v, calls⟩) ∧
      Recovers saga calls execution.status :=
  execute_recovers (not_overflows h)

/-! A flight is reserved, and can be cancelled; the hotel is always sold out. -/

def reserveFlight : SagaStep Unit :=
  ⟨"reserve-flight", fun w => (.ok (.string "f1"), w), 0⟩

def reserveHotel (maxRetries : UInt32) : SagaStep Unit :=
  ⟨"reserve-hotel", fun w => (.error "hotel sold out", w), maxRetries⟩

def bookTrip (maxRetries : UInt32) : Saga Unit :=
  ⟨"book-trip", [reserveFlight, reserveHotel maxRetries],
    CompensationRegistry.register (fun _ => none) "reserve-flight" fun _ w => (.ok (), w)⟩

theorem reserveHotel_fails (maxRetries : UInt32) (n : Nat) :
    Fails (reserveHotel maxRetries) (List.replicate n "hotel sold out") () () := by
  induction n with
  | zero => exact .none
  | succ n ih => exact .again rfl ih

/-- The flight is not cancelled if the hotel may be tried `u32::MAX` times more. -/
theorem overflowing_saga :
    ¬ ∃ (execution : SagaExecution) (calls : List Call) (v : Unit),
      (bookTrip (UInt32.ofNat u32Max)).execute ⟨(), []⟩ = some (execution, ⟨v, calls⟩) ∧
      Recovers (bookTrip (UInt32.ofNat u32Max)) calls execution.status := by
  have hover : Overflows (bookTrip (UInt32.ofNat u32Max)).steps () :=
    .later (.none (w := ())) (Nat.zero_le _) rfl
      (.here rfl (reserveHotel_fails _ u32Max) List.length_replicate)
  rintro ⟨_, _, _, hexecute, _⟩
  rw [execute_overflows hover] at hexecute
  cases hexecute

example : ((bookTrip 0).execute ⟨(), []⟩).map (·.1.status) = some .compensated := by
  simp [Saga.execute, bookTrip, reserveFlight, reserveHotel, forwardSteps, SagaStep.attempt,
    SagaStep.call, SagaStep.record, backwardSteps, compensate, CompensationRegistry.register,
    u32Max]

end Heirloom.Backend.Sagas
