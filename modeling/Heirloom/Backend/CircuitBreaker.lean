import Mathlib.Data.UInt
import Heirloom.Lib.Runs

/-!
# The circuit breaker

A breaker lets calls through while it is closed, rejects them while it is open, and probes
with single calls while it is half-open. Its counters are read and written by the four
functions of a call; those of a phase are those of the phase only because every way into
the phase resets them.

Results:
1. `breaker_behaves`: over every run of sequential calls, what makes the breaker change
   its state, what it counts, and what its list of events holds.
-/

namespace Heirloom.Backend.Breaker

open Runs

/-! ## The breaker -/

/-- `opened` is the state `Open`. -/
inductive CircuitState
  | closed | opened | halfOpen
deriving DecidableEq

/-- The thresholds are `u32`s; the duration is in nanoseconds. -/
structure CircuitBreakerConfig where
  failureThreshold : Nat
  successThreshold : Nat
  openDuration : Nat

structure StateChangeEvent where
  breaker : String
  source : CircuitState
  target : CircuitState
  occurredAt : Int
  reason : String
deriving DecidableEq

def maxEventHistory : Nat := 200

/-- A breaker. The consecutive counters stay within the thresholds, so that they need no
width. `past` is every event so far, which the code does not keep. -/
structure CircuitBreaker where
  name : String
  config : CircuitBreakerConfig
  state : CircuitState
  consecutiveFailures : Nat
  consecutiveSuccesses : Nat
  callsAllowedTotal : UInt64
  callsRejectedTotal : UInt64
  failuresTotal : UInt64
  successesTotal : UInt64
  stateTransitionsTotal : UInt64
  openedAt : Option Nat
  openedAtWall : Option Int
  events : List StateChangeEvent
  past : List StateChangeEvent

/-- An instant of the monotonic clock, and the wall clock at it. -/
structure Moment where
  instant : Nat
  wall : Int

def new (name : String) (config : CircuitBreakerConfig) : CircuitBreaker :=
  ⟨name, config, .closed, 0, 0, 0, 0, 0, 0, 0, none, none, [], []⟩

/-- Appends an event and drops the oldest ones beyond the limit. -/
def pushEvent (b : CircuitBreaker) (event : StateChangeEvent) : CircuitBreaker :=
  let events := b.events ++ [event]
  { b with
    events := if maxEventHistory < events.length then
        events.drop (events.length - maxEventHistory)
      else events
    past := b.past ++ [event] }

/-- What `transition` does once the states differ, up to its event. -/
def enter (b : CircuitBreaker) (target : CircuitState) (now : Moment) : CircuitBreaker :=
  let b := { b with state := target, stateTransitionsTotal := b.stateTransitionsTotal + 1 }
  match target with
  | .opened => { b with openedAt := some now.instant, openedAtWall := some now.wall }
  | .closed => { b with openedAt := none, openedAtWall := none, consecutiveFailures := 0 }
  | .halfOpen => b

def transition (b : CircuitBreaker) (target : CircuitState) (reason : String) (now : Moment) :
    CircuitBreaker :=
  if b.state = target then b
  else pushEvent (enter b target now) ⟨b.name, b.state, target, now.wall, reason⟩

/-- Whether a call is let through, after the cool-down as a probe. -/
def allowCall (b : CircuitBreaker) (now : Moment) : Bool × CircuitBreaker :=
  match b.state with
  | .closed => (true, b)
  | .halfOpen => (true, b)
  | .opened =>
      let elapsed := match b.openedAt with
        | some opened => decide (b.config.openDuration ≤ now.instant - opened)
        | none => true
      if elapsed then (true, transition b .halfOpen "open_duration elapsed, probing" now)
      else (false, b)

def onSuccess (b : CircuitBreaker) (now : Moment) : CircuitBreaker :=
  let b := { b with successesTotal := b.successesTotal + 1, consecutiveFailures := 0 }
  match b.state with
  | .closed => b
  | .halfOpen =>
      let successes := b.consecutiveSuccesses + 1
      if b.config.successThreshold ≤ successes then
        transition { b with consecutiveSuccesses := 0 } .closed
          "success threshold reached in half-open" now
      else { b with consecutiveSuccesses := successes }
  | .opened => b

def onFailure (b : CircuitBreaker) (now : Moment) : CircuitBreaker :=
  let b := { b with failuresTotal := b.failuresTotal + 1, consecutiveSuccesses := 0 }
  match b.state with
  | .closed =>
      let failures := b.consecutiveFailures + 1
      let b := { b with consecutiveFailures := failures }
      if b.config.failureThreshold ≤ failures then
        transition b .opened "failure threshold exceeded" now
      else b
  | .halfOpen => transition b .opened "probe failed in half-open" now
  | .opened => b

/-- A call: when it asks, when its operation ends if it is run, and how. -/
structure Attempt where
  start : Moment
  finish : Moment
  succeeds : Bool

inductive CallResult
  | rejected | succeeded | failed
deriving DecidableEq

def call (b : CircuitBreaker) (a : Attempt) : CallResult × CircuitBreaker :=
  match allowCall b a.start with
  | (false, b) => (.rejected, { b with callsRejectedTotal := b.callsRejectedTotal + 1 })
  | (true, b) =>
      let b := { b with callsAllowedTotal := b.callsAllowedTotal + 1 }
      if a.succeeds then (.succeeded, onSuccess b a.finish)
      else (.failed, onFailure b a.finish)

/-! ## Runs and what they say of the phases -/

/-- A call with its result and the state of the breaker before and after it. -/
structure Observation where
  attempt : Attempt
  result : CallResult
  before : CircuitState
  after : CircuitState

def CallStep (b : CircuitBreaker) (k : Observation) (b' : CircuitBreaker) : Prop :=
  call b k.attempt = (k.result, b') ∧ k.before = b.state ∧ k.after = b'.state

/-- The failures in a row since the last success or since the breaker was last closed, the
newest call first. -/
def closedFailures : List Observation → Nat
  | [] => 0
  | k :: ks =>
      if k.before = .closed ∧ k.result = .failed then closedFailures ks + 1 else 0

/-- The successes in a row of a half-open phase, which begins with a call that is let
through an open breaker. -/
def probeSuccesses : List Observation → Nat
  | [] => 0
  | k :: ks =>
      if k.result = .succeeded then
        match k.before with
        | .halfOpen => probeSuccesses ks + 1
        | .opened => 1
        | .closed => 0
      else 0

/-- When the breaker last opened: at the end of the last call that failed and left it open. -/
def lastOpened : List Observation → Option Nat
  | [] => none
  | k :: ks =>
      if k.result = .failed ∧ k.after = .opened then some k.attempt.finish.instant
      else lastOpened ks

/-- The events lead from one state to another, each from where the one before it ended. -/
inductive Linked (x : CircuitState) : List StateChangeEvent → CircuitState → Prop
  | nil : Linked x [] x
  | snoc {y : CircuitState} {events : List StateChangeEvent} {event : StateChangeEvent}
      (h : Linked x events y) (hsource : event.source = y) :
      Linked x (events ++ [event]) event.target

/-- A step as the documentation has it. -/
structure Obeys (config : CircuitBreakerConfig) (ks : List Observation) (t : CircuitBreaker)
    (k : Observation) (u : CircuitBreaker) : Prop where
  leavesClosed : t.state = .closed → u.state ≠ .closed →
    config.failureThreshold ≤ closedFailures (k :: ks)
  staysOpen : t.state = .opened → ∃ opened, lastOpened ks = some opened ∧
    (k.result ≠ .rejected ↔ config.openDuration ≤ k.attempt.start.instant - opened)
  closes : t.state ≠ .closed → u.state = .closed →
    config.successThreshold ≤ probeSuccesses (k :: ks)
  reopens : t.state ≠ .closed → k.result = .failed → u.state = .opened

/-- The events of a breaker are the last ones of all, and they are linked. -/
structure Traced (t : CircuitBreaker) : Prop where
  transitions : t.stateTransitionsTotal = UInt64.ofNat t.past.length
  events : t.events = t.past.drop (t.past.length - min maxEventHistory t.past.length)
  linked : Linked .closed t.past t.state

/-- What the breaker has recorded. -/
structure Logged (t : CircuitBreaker) : Prop extends Traced t where
  calls : t.callsAllowedTotal = t.successesTotal + t.failuresTotal

/-! ## Transitions -/

section Transitions

variable {b : CircuitBreaker} {target : CircuitState} {reason : String} {now : Moment}
  {event : StateChangeEvent}

/-- What the transitions of a breaker leave as it is. -/
structure Keeps (b b' : CircuitBreaker) : Prop where
  config : b'.config = b.config
  consecutiveSuccesses : b'.consecutiveSuccesses = b.consecutiveSuccesses
  callsAllowedTotal : b'.callsAllowedTotal = b.callsAllowedTotal
  failuresTotal : b'.failuresTotal = b.failuresTotal
  successesTotal : b'.successesTotal = b.successesTotal

theorem transition_keeps : Keeps b (transition b target reason now) := by
  unfold transition
  split
  · exact ⟨rfl, rfl, rfl, rfl, rfl⟩
  · cases target <;> exact ⟨rfl, rfl, rfl, rfl, rfl⟩

theorem state_transition : (transition b target reason now).state = target := by
  unfold transition
  split
  · next h => exact h
  · cases target <;> rfl

theorem openedAt_transition (h : b.state ≠ .opened) :
    (transition b .opened reason now).openedAt = some now.instant := by
  unfold transition
  rw [if_neg h]
  rfl

theorem consecutiveFailures_transition (h : b.state ≠ .closed) :
    (transition b .closed reason now).consecutiveFailures = 0 := by
  unfold transition
  rw [if_neg h]
  rfl

/-- The last events and a new one are the last events of all. -/
theorem events_pushEvent (h : b.events = b.past.drop (b.past.length -
    min maxEventHistory b.past.length)) : (pushEvent b event).events =
      (pushEvent b event).past.drop ((pushEvent b event).past.length -
        min maxEventHistory (pushEvent b event).past.length) := by
  have hlength : b.events.length = min maxEventHistory b.past.length := by
    rw [h, List.length_drop]
    omega
  show (if maxEventHistory < (b.events ++ [event]).length then _ else _) =
    (b.past ++ [event]).drop _
  rw [List.length_append, List.length_singleton, hlength]
  have hdrop : ∀ n ≤ b.past.length, (b.past ++ [event]).drop n = b.past.drop n ++ [event] :=
    fun n hn => List.drop_append_of_le_length hn
  show _ = (b.past ++ [event]).drop ((b.past ++ [event]).length -
    min maxEventHistory (b.past ++ [event]).length)
  rw [List.length_append, List.length_singleton]
  unfold maxEventHistory at h ⊢
  split
  · -- the list is full: the oldest event goes
    next hfull =>
    have hpast : 200 ≤ b.past.length := by omega
    have hone : min 200 b.past.length + 1 - 200 = 1 := by omega
    have hstart : b.past.length + 1 - min 200 (b.past.length + 1) =
        b.past.length - min 200 b.past.length + 1 := by omega
    rw [hone, hstart, hdrop _ (by omega), h,
      List.drop_append_of_le_length (by rw [List.length_drop]; omega), List.drop_drop]
  · next hroom =>
    have hstart : b.past.length + 1 - min 200 (b.past.length + 1) = 0 := by omega
    have hall : b.past.length - min 200 b.past.length = 0 := by omega
    rw [hstart, h, hall, List.drop_zero, List.drop_zero]

theorem Traced.transition (h : Traced b) : Traced (transition b target reason now) := by
  unfold Breaker.transition
  split
  · exact h
  · have hentered : (enter b target now).past = b.past ∧ (enter b target now).events = b.events ∧
        (enter b target now).stateTransitionsTotal = b.stateTransitionsTotal + 1 ∧
        (enter b target now).state = target := by
      cases target <;> exact ⟨rfl, rfl, rfl, rfl⟩
    obtain ⟨hpast, hevents, htotal, hstate⟩ := hentered
    refine ⟨?_, events_pushEvent ?_, ?_⟩
    · show (enter b target now).stateTransitionsTotal =
        UInt64.ofNat ((enter b target now).past ++ _).length
      rw [htotal, hpast, h.transitions, List.length_append, List.length_singleton,
        UInt64.ofNat_add]
      rfl
    · rw [hevents, hpast]
      exact h.events
    · show Linked .closed ((enter b target now).past ++ _) (enter b target now).state
      rw [hpast, hstate]
      exact Linked.snoc h.linked (rfl : (⟨b.name, b.state, target, now.wall, reason⟩ :
        StateChangeEvent).source = b.state)

end Transitions

/-! ## Calls -/

section Calls

variable {b : CircuitBreaker} {now : Moment}

/-- What a success does to a breaker that runs calls. -/
inductive Succeeds (b : CircuitBreaker) : CircuitBreaker → Prop
  | closed {b' : CircuitBreaker} (hbefore : b.state = .closed) (hafter : b'.state = .closed)
      (hfailures : b'.consecutiveFailures = 0) : Succeeds b b'
  | probed {b' : CircuitBreaker} (hbefore : b.state = .halfOpen) (hafter : b'.state = .halfOpen)
      (hsuccesses : b'.consecutiveSuccesses = b.consecutiveSuccesses + 1) : Succeeds b b'
  | recovers {b' : CircuitBreaker} (hbefore : b.state = .halfOpen) (hafter : b'.state = .closed)
      (hthreshold : b.config.successThreshold ≤ b.consecutiveSuccesses + 1)
      (hfailures : b'.consecutiveFailures = 0) : Succeeds b b'

theorem onSuccess_succeeds (h : b.state ≠ .opened) : Succeeds b (onSuccess b now) := by
  cases hstate : b.state with
  | opened => exact absurd hstate h
  | closed =>
      simp only [onSuccess, hstate]
      exact .closed hstate rfl rfl
  | halfOpen =>
      by_cases hthreshold : b.config.successThreshold ≤ b.consecutiveSuccesses + 1
      · simp only [onSuccess, hstate, if_pos hthreshold]
        exact .recovers hstate state_transition hthreshold
          (consecutiveFailures_transition (by simp))
      · simp only [onSuccess, hstate, if_neg hthreshold]
        exact .probed hstate rfl rfl

/-- What a failure does to a breaker that runs calls. -/
inductive Fails (b : CircuitBreaker) (now : Moment) : CircuitBreaker → Prop
  | counted {b' : CircuitBreaker} (hbefore : b.state = .closed) (hafter : b'.state = .closed)
      (hfailures : b'.consecutiveFailures = b.consecutiveFailures + 1) : Fails b now b'
  | trips {b' : CircuitBreaker} (hbefore : b.state = .closed) (hafter : b'.state = .opened)
      (hthreshold : b.config.failureThreshold ≤ b.consecutiveFailures + 1)
      (hsuccesses : b'.consecutiveSuccesses = 0) (hopened : b'.openedAt = some now.instant) :
      Fails b now b'
  | reopens {b' : CircuitBreaker} (hbefore : b.state = .halfOpen) (hafter : b'.state = .opened)
      (hsuccesses : b'.consecutiveSuccesses = 0) (hopened : b'.openedAt = some now.instant) :
      Fails b now b'

theorem onFailure_fails (h : b.state ≠ .opened) : Fails b now (onFailure b now) := by
  cases hstate : b.state with
  | opened => exact absurd hstate h
  | closed =>
      by_cases hthreshold : b.config.failureThreshold ≤ b.consecutiveFailures + 1
      · simp only [onFailure, hstate, if_pos hthreshold]
        exact .trips hstate state_transition hthreshold transition_keeps.consecutiveSuccesses
          (openedAt_transition (by simp))
      · simp only [onFailure, hstate, if_neg hthreshold]
        exact .counted hstate rfl rfl
  | halfOpen =>
      simp only [onFailure, hstate]
      exact .reopens hstate state_transition transition_keeps.consecutiveSuccesses
        (openedAt_transition (by simp))

/-- What a call is let through as: `b` itself, or a breaker that begins to probe. -/
inductive Admits (b : CircuitBreaker) (now : Moment) : CircuitBreaker → Prop
  | running (hstate : b.state ≠ .opened) : Admits b now b
  | probing {b' : CircuitBreaker} (hbefore : b.state = .opened) (hafter : b'.state = .halfOpen)
      (helapsed : ∀ opened, b.openedAt = some opened →
        b.config.openDuration ≤ now.instant - opened)
      (hkeeps : Keeps b b') (htraced : Traced b → Traced b') : Admits b now b'

/-- The two outcomes of `allow_call`. -/
inductive Allows (b : CircuitBreaker) (now : Moment) : Bool × CircuitBreaker → Prop
  | admitted {b' : CircuitBreaker} (h : Admits b now b') : Allows b now (true, b')
  | refused {opened : Nat} (hstate : b.state = .opened) (hopened : b.openedAt = some opened)
      (hwait : ¬ b.config.openDuration ≤ now.instant - opened) : Allows b now (false, b)

theorem allowCall_allows : Allows b now (allowCall b now) := by
  cases hstate : b.state with
  | closed =>
      simp only [allowCall, hstate]
      exact .admitted (.running (by simp [hstate]))
  | halfOpen =>
      simp only [allowCall, hstate]
      exact .admitted (.running (by simp [hstate]))
  | opened =>
      cases hopened : b.openedAt with
      | none =>
          simp only [allowCall, hstate, hopened, if_true]
          refine .admitted (.probing hstate state_transition (fun opened h => ?_) transition_keeps
            Traced.transition)
          rw [hopened] at h
          cases h
      | some opened =>
          by_cases helapsed : b.config.openDuration ≤ now.instant - opened
          · simp only [allowCall, hstate, hopened, helapsed, decide_true, if_true]
            refine .admitted (.probing hstate state_transition (fun opened' h => ?_)
              transition_keeps Traced.transition)
            obtain rfl := Option.some.inj (hopened.symm.trans h)
            exact helapsed
          · simp only [allowCall, hstate, hopened, helapsed, decide_false, Bool.false_eq_true,
              if_false]
            exact .refused hstate hopened helapsed

/-- A call that ran has been counted once. -/
structure Counted (b b' : CircuitBreaker) (successes failures : UInt64) : Prop where
  config : b'.config = b.config
  callsAllowedTotal : b'.callsAllowedTotal = b.callsAllowedTotal
  successesTotal : b'.successesTotal = b.successesTotal + successes
  failuresTotal : b'.failuresTotal = b.failuresTotal + failures
  traced : Traced b → Traced b'

theorem counted_transition {b₁ : CircuitBreaker} {successes failures : UInt64}
    {target : CircuitState} {reason : String} (h : Counted b b₁ successes failures) :
    Counted b (transition b₁ target reason now) successes failures := by
  have hkeeps : Keeps b₁ (transition b₁ target reason now) := transition_keeps
  exact ⟨hkeeps.config.trans h.config, hkeeps.callsAllowedTotal.trans h.callsAllowedTotal,
    hkeeps.successesTotal.trans h.successesTotal, hkeeps.failuresTotal.trans h.failuresTotal,
    fun ht => (h.traced ht).transition⟩

theorem onSuccess_counted : Counted b (onSuccess b now) 1 0 := by
  have hcounted : ∀ successes, Counted b { b with
      successesTotal := b.successesTotal + 1, consecutiveFailures := 0,
      consecutiveSuccesses := successes } 1 0 :=
    fun _ => ⟨rfl, rfl, rfl, (UInt64.add_zero _).symm,
      fun h => ⟨h.transitions, h.events, h.linked⟩⟩
  unfold onSuccess
  dsimp only
  split
  · exact hcounted _
  · split
    · exact counted_transition (hcounted 0)
    · exact hcounted _
  · exact hcounted _

theorem onFailure_counted : Counted b (onFailure b now) 0 1 := by
  have hcounted : ∀ failures, Counted b { b with
      failuresTotal := b.failuresTotal + 1, consecutiveSuccesses := 0,
      consecutiveFailures := failures } 0 1 :=
    fun _ => ⟨rfl, rfl, (UInt64.add_zero _).symm, rfl,
      fun h => ⟨h.transitions, h.events, h.linked⟩⟩
  unfold onFailure
  dsimp only
  split
  · split
    · exact counted_transition (hcounted _)
    · exact hcounted _
  · exact counted_transition (hcounted _)
  · exact hcounted _

/-- A call is refused, or it is let through and succeeds or fails. -/
inductive CallEffect (b : CircuitBreaker) (a : Attempt) : CallResult × CircuitBreaker → Prop
  | rejected {opened : Nat} (hstate : b.state = .opened) (hopened : b.openedAt = some opened)
      (hwait : ¬ b.config.openDuration ≤ a.start.instant - opened) :
      CallEffect b a (.rejected, { b with callsRejectedTotal := b.callsRejectedTotal + 1 })
  | succeeded {b₁ b' : CircuitBreaker} (hadmits : Admits b a.start b₁)
      (hsucceeds : Succeeds b₁ b')
      (hcounted : Counted { b₁ with callsAllowedTotal := b₁.callsAllowedTotal + 1 } b' 1 0) :
      CallEffect b a (.succeeded, b')
  | failed {b₁ b' : CircuitBreaker} (hadmits : Admits b a.start b₁)
      (hfails : Fails b₁ a.finish b')
      (hcounted : Counted { b₁ with callsAllowedTotal := b₁.callsAllowedTotal + 1 } b' 0 1) :
      CallEffect b a (.failed, b')

theorem Admits.runs {b₁ : CircuitBreaker} (h : Admits b now b₁) : b₁.state ≠ .opened := by
  cases h with
  | running hstate => exact hstate
  | probing hbefore hafter =>
      rw [hafter]
      decide

theorem call_effect (b : CircuitBreaker) (a : Attempt) : CallEffect b a (call b a) := by
  have hallows : Allows b a.start (allowCall b a.start) := allowCall_allows
  unfold call
  generalize allowCall b a.start = allowed at hallows
  cases hallows with
  | refused hstate hopened hwait => exact .rejected hstate hopened hwait
  | @admitted b₁ hadmits =>
      dsimp only
      split
      · refine .succeeded hadmits ?_ onSuccess_counted
        have hsucceeds : Succeeds { b₁ with callsAllowedTotal := b₁.callsAllowedTotal + 1 }
            (onSuccess { b₁ with callsAllowedTotal := b₁.callsAllowedTotal + 1 } a.finish) :=
          onSuccess_succeeds hadmits.runs
        cases hsucceeds with
        | closed hbefore hafter hfailures => exact .closed hbefore hafter hfailures
        | probed hbefore hafter hsuccesses => exact .probed hbefore hafter hsuccesses
        | recovers hbefore hafter hthreshold hfailures =>
            exact .recovers hbefore hafter hthreshold hfailures
      · refine .failed hadmits ?_ onFailure_counted
        have hfails : Fails { b₁ with callsAllowedTotal := b₁.callsAllowedTotal + 1 } a.finish
            (onFailure { b₁ with callsAllowedTotal := b₁.callsAllowedTotal + 1 } a.finish) :=
          onFailure_fails hadmits.runs
        cases hfails with
        | counted hbefore hafter hfailures => exact .counted hbefore hafter hfailures
        | trips hbefore hafter hthreshold hsuccesses hopened =>
            exact .trips hbefore hafter hthreshold hsuccesses hopened
        | reopens hbefore hafter hsuccesses hopened =>
            exact .reopens hbefore hafter hsuccesses hopened

end Calls

/-! ## Runs -/

/-- The counters of a phase are those of the calls in it. -/
structure Phased (config : CircuitBreakerConfig) (ks : List Observation) (t : CircuitBreaker) :
    Prop where
  config_eq : t.config = config
  logged : Logged t
  closed : t.state = .closed → t.consecutiveFailures = closedFailures ks
  probing : t.state = .halfOpen → t.consecutiveSuccesses = probeSuccesses ks
  waiting : t.state = .opened → t.consecutiveSuccesses = 0 ∧
    ∃ opened, t.openedAt = some opened ∧ lastOpened ks = some opened

section Runs

variable {config : CircuitBreakerConfig} {ks : List Observation} {t u : CircuitBreaker}
  {k : Observation} {name : String}

theorem phased_new : Phased config [] (new name config) := by
  refine ⟨rfl, ⟨⟨rfl, rfl, .nil⟩, rfl⟩, fun _ => rfl, fun h => ?_, fun h => ?_⟩ <;> cases h

/-- A probe begins with no successes counted. -/
theorem Phased.admits {b₁ : CircuitBreaker} (h : Phased config ks t) {now : Moment}
    (hadmits : Admits t now b₁) : b₁.config = config ∧ Logged b₁ ∧
      (b₁.state = .closed → t.state = .closed ∧ b₁.consecutiveFailures = closedFailures ks) ∧
      (b₁.state = .halfOpen → t.state = .halfOpen ∧ b₁.consecutiveSuccesses = probeSuccesses ks ∨
        t.state = .opened ∧ b₁.consecutiveSuccesses = 0) := by
  cases hadmits with
  | running hstate =>
      exact ⟨h.config_eq, h.logged, fun hc => ⟨hc, h.closed hc⟩,
        fun hp => .inl ⟨hp, h.probing hp⟩⟩
  | probing hbefore hafter helapsed hkeeps htraced =>
      refine ⟨hkeeps.config.trans h.config_eq, ⟨htraced h.logged.toTraced, ?_⟩, fun hc => ?_,
        fun _ => ?_⟩
      · rw [hkeeps.callsAllowedTotal, hkeeps.successesTotal, hkeeps.failuresTotal]
        exact h.logged.calls
      · rw [hafter] at hc
        cases hc
      · exact .inr ⟨hbefore, hkeeps.consecutiveSuccesses.trans (h.waiting hbefore).1⟩

theorem closedFailures_failed (hbefore : k.before = .closed) (hresult : k.result = .failed) :
    closedFailures (k :: ks) = closedFailures ks + 1 :=
  if_pos ⟨hbefore, hresult⟩

theorem closedFailures_of_ne (h : ¬ (k.before = .closed ∧ k.result = .failed)) :
    closedFailures (k :: ks) = 0 :=
  if_neg h

theorem probeSuccesses_halfOpen (hbefore : k.before = .halfOpen)
    (hresult : k.result = .succeeded) :
    probeSuccesses (k :: ks) = probeSuccesses ks + 1 := by
  simp only [probeSuccesses, if_pos hresult, hbefore]

theorem probeSuccesses_opened (hbefore : k.before = .opened) (hresult : k.result = .succeeded) :
    probeSuccesses (k :: ks) = 1 := by
  simp only [probeSuccesses, if_pos hresult, hbefore]

theorem lastOpened_failed (hresult : k.result = .failed) (hafter : k.after = .opened) :
    lastOpened (k :: ks) = some k.attempt.finish.instant :=
  if_pos ⟨hresult, hafter⟩

/-- A success in a phase counts one more, also when the phase begins with it. -/
theorem Phased.probeSuccesses_succ {b₁ : CircuitBreaker} (h : Phased config ks t)
    (hadmits : Admits t k.attempt.start b₁) (hprobing : b₁.state = .halfOpen)
    (hbefore : k.before = t.state) (hresult : k.result = .succeeded) :
    probeSuccesses (k :: ks) = b₁.consecutiveSuccesses + 1 := by
  rcases (h.admits hadmits).2.2.2 hprobing with ⟨hstate, hcount⟩ | ⟨hstate, hcount⟩
  · rw [probeSuccesses_halfOpen (hbefore.trans hstate) hresult, hcount]
  · rw [probeSuccesses_opened (hbefore.trans hstate) hresult, hcount]

/-- A call that is let through an open breaker comes after the wait. -/
theorem Phased.admitted_late {b₁ : CircuitBreaker} (h : Phased config ks t)
    (hadmits : Admits t k.attempt.start b₁) (hran : k.result ≠ .rejected)
    (hopened : t.state = .opened) : ∃ opened, lastOpened ks = some opened ∧
      (k.result ≠ .rejected ↔ config.openDuration ≤ k.attempt.start.instant - opened) := by
  obtain ⟨-, opened, hat, hlast⟩ := h.waiting hopened
  refine ⟨opened, hlast, fun _ => ?_, fun _ => hran⟩
  cases hadmits with
  | running hstate => exact absurd hopened hstate
  | probing hbefore hafter helapsed =>
      rw [← h.config_eq]
      exact helapsed opened hat

/-- A call that was let through adds one to the total and to that of its outcome. -/
theorem Logged.counted {b b' : CircuitBreaker} {successes failures : UInt64} (h : Logged b)
    (hcounted : Counted { b with callsAllowedTotal := b.callsAllowedTotal + 1 } b' successes
      failures) (hone : successes + failures = 1) : Logged b' := by
  refine ⟨hcounted.traced ⟨h.transitions, h.events, h.linked⟩, ?_⟩
  rw [hcounted.callsAllowedTotal, hcounted.successesTotal, hcounted.failuresTotal]
  show b.callsAllowedTotal + 1 = b.successesTotal + successes + (b.failuresTotal + failures)
  rw [h.calls, ← hone]
  ac_rfl

theorem Phased.rejected (h : Phased config ks t) (hresult : k.result = .rejected)
    (hstate : t.state = .opened) :
    Phased config (k :: ks) { t with callsRejectedTotal := t.callsRejectedTotal + 1 } := by
  have hlogged : Logged { t with callsRejectedTotal := t.callsRejectedTotal + 1 } :=
    ⟨⟨h.logged.transitions, h.logged.events, h.logged.linked⟩, h.logged.calls⟩
  refine ⟨h.config_eq, hlogged, fun hc => ?_, fun hp => ?_, fun _ => ?_⟩
  · exact absurd (hstate.symm.trans hc) (by decide)
  · exact absurd (hstate.symm.trans hp) (by decide)
  · have hlast : lastOpened (k :: ks) = lastOpened ks :=
      if_neg fun hf => absurd (hresult.symm.trans hf.1) (by decide)
    rw [hlast]
    exact h.waiting hstate

theorem Phased.succeeded {b₁ : CircuitBreaker} (h : Phased config ks t)
    (hadmits : Admits t k.attempt.start b₁) (hsucceeds : Succeeds b₁ u)
    (hcounted : Counted { b₁ with callsAllowedTotal := b₁.callsAllowedTotal + 1 } u 1 0)
    (hbefore : k.before = t.state) (hresult : k.result = .succeeded) :
    Phased config (k :: ks) u := by
  obtain ⟨hconfig, hlogged, -, -⟩ := h.admits hadmits
  have hnofailure : closedFailures (k :: ks) = 0 :=
    closedFailures_of_ne fun hf => absurd (hresult.symm.trans hf.2) (by decide)
  refine ⟨hcounted.config.trans hconfig, hlogged.counted hcounted rfl, ?_, ?_, ?_⟩
  · intro hclosed
    rw [hnofailure]
    cases hsucceeds with
    | closed _ _ hfailures => exact hfailures
    | probed _ hafter => exact absurd (hafter.symm.trans hclosed) (by decide)
    | recovers _ _ _ hfailures => exact hfailures
  · intro hprobing
    cases hsucceeds with
    | closed _ hafter => exact absurd (hafter.symm.trans hprobing) (by decide)
    | probed hstate _ hsuccesses =>
        rw [hsuccesses, h.probeSuccesses_succ hadmits hstate hbefore hresult]
    | recovers _ hafter => exact absurd (hafter.symm.trans hprobing) (by decide)
  · intro hopened
    cases hsucceeds with
    | closed _ hafter => exact absurd (hafter.symm.trans hopened) (by decide)
    | probed _ hafter => exact absurd (hafter.symm.trans hopened) (by decide)
    | recovers _ hafter => exact absurd (hafter.symm.trans hopened) (by decide)

theorem Phased.failed {b₁ : CircuitBreaker} (h : Phased config ks t)
    (hadmits : Admits t k.attempt.start b₁) (hfails : Fails b₁ k.attempt.finish u)
    (hcounted : Counted { b₁ with callsAllowedTotal := b₁.callsAllowedTotal + 1 } u 0 1)
    (hbefore : k.before = t.state) (hafter : k.after = u.state) (hresult : k.result = .failed) :
    Phased config (k :: ks) u := by
  obtain ⟨hconfig, hlogged, hclosed, -⟩ := h.admits hadmits
  have hlast : u.state = .opened → lastOpened (k :: ks) = some k.attempt.finish.instant :=
    fun hopened => lastOpened_failed hresult (hafter.trans hopened)
  refine ⟨hcounted.config.trans hconfig, hlogged.counted hcounted rfl, ?_, ?_, ?_⟩
  · intro hstate
    cases hfails with
    | counted hb _ hfailures =>
        obtain ⟨ht, hcount⟩ := hclosed hb
        rw [hfailures, hcount, closedFailures_failed (hbefore.trans ht) hresult]
    | trips _ ha => exact absurd (ha.symm.trans hstate) (by decide)
    | reopens _ ha => exact absurd (ha.symm.trans hstate) (by decide)
  · intro hstate
    cases hfails with
    | counted _ ha => exact absurd (ha.symm.trans hstate) (by decide)
    | trips _ ha => exact absurd (ha.symm.trans hstate) (by decide)
    | reopens _ ha => exact absurd (ha.symm.trans hstate) (by decide)
  · intro hstate
    cases hfails with
    | counted _ ha => exact absurd (ha.symm.trans hstate) (by decide)
    | trips _ _ _ hsuccesses hopened => exact ⟨hsuccesses, _, hopened, hlast hstate⟩
    | reopens _ _ hsuccesses hopened => exact ⟨hsuccesses, _, hopened, hlast hstate⟩

/-- The step rule: the counters stay those of the phase. -/
theorem Phased.step (h : Phased config ks t) (hstep : CallStep t k u) :
    Phased config (k :: ks) u := by
  obtain ⟨hcall, hbefore, hafter⟩ := hstep
  have heffect : CallEffect t k.attempt (k.result, u) := hcall ▸ call_effect t k.attempt
  generalize hresult : k.result = result at heffect
  cases heffect with
  | rejected hstate => exact h.rejected hresult hstate
  | succeeded hadmits hsucceeds hcounted =>
      exact h.succeeded hadmits hsucceeds hcounted hbefore hresult
  | failed hadmits hfails hcounted =>
      exact h.failed hadmits hfails hcounted hbefore hafter hresult

/-- A step from a state whose counters are those of the phase is as documented. -/
theorem Phased.obeys (h : Phased config ks t) (hstep : CallStep t k u) :
    Obeys config ks t k u := by
  obtain ⟨hcall, hbefore, -⟩ := hstep
  have heffect : CallEffect t k.attempt (k.result, u) := hcall ▸ call_effect t k.attempt
  generalize hresult : k.result = result at heffect
  cases heffect with
  | rejected hstate hopened hwait =>
      obtain ⟨-, opened, hat, hlast⟩ := h.waiting hstate
      obtain rfl := Option.some.inj (hopened.symm.trans hat)
      refine ⟨fun hc => ?_, fun _ => ⟨_, hlast, fun hran => absurd hresult hran, fun hlate => ?_⟩,
        fun hne hc => absurd hc hne, fun _ hf => ?_⟩
      · exact absurd (hstate.symm.trans hc) (by decide)
      · rw [← h.config_eq] at hlate
        exact absurd hlate hwait
      · exact absurd (hresult.symm.trans hf) (by decide)
  | succeeded hadmits hsucceeds hcounted =>
      have hran : k.result ≠ .rejected := by
        rw [hresult]
        decide
      obtain ⟨hconfig, -, hclosed, -⟩ := h.admits hadmits
      refine ⟨fun ht hu => ?_, h.admitted_late hadmits hran, fun ht hu => ?_, fun _ hf => ?_⟩
      · -- a success leaves a closed breaker closed
        cases hadmits with
        | probing hb => exact absurd (hb.symm.trans ht) (by decide)
        | running =>
            cases hsucceeds with
            | closed _ ha => exact absurd ha hu
            | probed hb => exact absurd (hb.symm.trans ht) (by decide)
            | recovers hb => exact absurd (hb.symm.trans ht) (by decide)
      · cases hsucceeds with
        | closed hb => exact absurd (hclosed hb).1 ht
        | probed _ ha => exact absurd (ha.symm.trans hu) (by decide)
        | recovers hb _ hthreshold =>
            rw [h.probeSuccesses_succ hadmits hb hbefore hresult, ← hconfig]
            exact hthreshold
      · exact absurd (hresult.symm.trans hf) (by decide)
  | failed hadmits hfails hcounted =>
      have hran : k.result ≠ .rejected := by
        rw [hresult]
        decide
      obtain ⟨hconfig, -, hclosed, -⟩ := h.admits hadmits
      refine ⟨fun ht hu => ?_, h.admitted_late hadmits hran, fun ht hu => ?_, fun ht _ => ?_⟩
      · cases hfails with
        | counted _ ha => exact absurd ha hu
        | trips hb _ hthreshold =>
            obtain ⟨hstate, hcount⟩ := hclosed hb
            rw [closedFailures_failed (hbefore.trans hstate) hresult, ← hcount, ← hconfig]
            exact hthreshold
        | reopens hb =>
            cases hadmits with
            | running => exact absurd (hb.symm.trans ht) (by decide)
            | probing hb' => exact absurd (hb'.symm.trans ht) (by decide)
      · cases hfails with
        | counted hb => exact absurd (hclosed hb).1 ht
        | trips hb => exact absurd (hclosed hb).1 ht
        | reopens _ ha => exact absurd (ha.symm.trans hu) (by decide)
      · cases hfails with
        | counted hb => exact absurd (hclosed hb).1 ht
        | trips hb => exact absurd (hclosed hb).1 ht
        | reopens _ ha => exact ha

theorem phased_run (h : Run CallStep (new name config) ks t) : Phased config ks t :=
  h.invariantHistory phased_new fun _ _ _ _ => Phased.step

/-- Over every run of calls the breaker moves as documented, each call that ran has been
counted as a success or as a failure, and its events are the last transitions. -/
theorem breaker_behaves (h : Run CallStep (new name config) ks t) :
    Logged t ∧ ∀ k u, CallStep t k u → Obeys config ks t k u := by
  have hphased : Phased config ks t := phased_run h
  exact ⟨hphased.logged, fun _ _ => hphased.obeys⟩

end Runs

/-! ## A run through all three states -/

def quick : CircuitBreakerConfig := ⟨1, 1, 10⟩

/-- A call fails at 5, the next one asks too early, and a probe at 15 succeeds. -/
def failing : Attempt := ⟨⟨0, 0⟩, ⟨5, 5⟩, false⟩
def early : Attempt := ⟨⟨14, 14⟩, ⟨14, 14⟩, true⟩
def probe : Attempt := ⟨⟨15, 15⟩, ⟨16, 16⟩, true⟩

def tripped : CircuitBreaker := (call (new "db" quick) failing).2
def waiting : CircuitBreaker := (call tripped early).2

theorem recovery : Run CallStep (new "db" quick)
    [⟨probe, .succeeded, .opened, .closed⟩, ⟨early, .rejected, .opened, .opened⟩,
      ⟨failing, .failed, .closed, .opened⟩] (call waiting probe).2 := by
  have hfails : CallStep (new "db" quick) ⟨failing, .failed, .closed, .opened⟩ tripped :=
    ⟨rfl, rfl, rfl⟩
  have hwaits : CallStep tripped ⟨early, .rejected, .opened, .opened⟩ waiting := ⟨rfl, rfl, rfl⟩
  have hcloses : CallStep waiting ⟨probe, .succeeded, .opened, .closed⟩ (call waiting probe).2 :=
    ⟨rfl, rfl, rfl⟩
  exact .next (.next (.next .start hfails) hwaits) hcloses

/-- The breaker has opened, probed and closed again, and its three events say so. -/
theorem breaker_behaves_recovery :
    (call waiting probe).2.stateTransitionsTotal = 3 ∧ (call waiting probe).2.events.length = 3 ∧
      (Logged (call waiting probe).2 ∧ ∀ k u, CallStep (call waiting probe).2 k u →
        Obeys quick [⟨probe, .succeeded, .opened, .closed⟩,
          ⟨early, .rejected, .opened, .opened⟩, ⟨failing, .failed, .closed, .opened⟩]
          (call waiting probe).2 k u) :=
  ⟨rfl, rfl, breaker_behaves recovery⟩

end Heirloom.Backend.Breaker
