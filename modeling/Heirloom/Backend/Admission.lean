import Mathlib.Order.Lattice.Nat
import Heirloom.Lib.Replaced
import Heirloom.Lib.Runs

/-!
# Admission of requests

Every request passes the load shedder and then takes one of the slots of its priority, before
its handler runs. All requests work on the same atomic counters, and each access to one is a step
of its own; any number of requests take turns. A request counts itself before it looks at the
load, and a slot is taken by compare and swap.

Results:
1. `slots_bounded`: never more handlers run at a priority than it has slots, no slot is lost, and
   a request is turned away exactly if all of them are taken at that moment.
2. `shedding_bounded`: fewer requests than each threshold are past the shedder at the priorities
   that it sheds, however they take turns, and a request is shed exactly if the load calls for it.
3. `requests_accounted`: every request is accepted or rejected once.
-/

namespace Heirloom.Backend.Admission

open Runs Replaced

/-! ## Priorities -/

/-- Declared low to high. -/
inductive Priority
  | low
  | normal
  | high
  | critical
deriving DecidableEq

namespace Priority

def level : Priority → Nat
  | low => 0
  | normal => 1
  | high => 2
  | critical => 3

theorem level_injective : Function.Injective level := by
  intro p q h
  cases p <;> cases q <;> first | rfl | cases h

instance : LinearOrder Priority := LinearOrder.lift' level level_injective

/-- `str::trim`; a header has only ASCII characters. -/
def trim (cs : List Char) : List Char :=
  ((cs.dropWhile Char.isWhitespace).reverse.dropWhile Char.isWhitespace).reverse

/-- Unknown values are taken for `normal`. -/
def parse (value : String) : Priority :=
  match String.ofList ((trim value.toList).map Char.toLower) with
  | "low" => low
  | "normal" => normal
  | "high" => high
  | "critical" => critical
  | _ => normal

/-- The priority of a request by its `x-priority` header, if it has one that is text. -/
def fromHeaders (header : Option String) : Priority :=
  (header.map parse).getD normal

def asStr : Priority → String
  | low => "low"
  | normal => "normal"
  | high => "high"
  | critical => "critical"

end Priority

/-! ## Configuration -/

/-- The slots of each priority; `0` is no bound. -/
structure PriorityConfig where
  lowMaxConcurrent : UInt64
  normalMaxConcurrent : UInt64
  highMaxConcurrent : UInt64
  criticalMaxConcurrent : UInt64

namespace PriorityConfig

def default : PriorityConfig := ⟨50, 200, 400, 0⟩

def maxConcurrent (config : PriorityConfig) : Priority → UInt64
  | .low => config.lowMaxConcurrent
  | .normal => config.normalMaxConcurrent
  | .high => config.highMaxConcurrent
  | .critical => config.criticalMaxConcurrent

end PriorityConfig

/-- From `inflightThreshold` requests on, those of priority `shedAtOrBelow` or less are shed. -/
structure SheddingThreshold where
  inflightThreshold : UInt64
  shedAtOrBelow : Priority

structure SheddingConfig where
  thresholds : List SheddingThreshold

def SheddingConfig.default : SheddingConfig :=
  ⟨[⟨300, .low⟩, ⟨600, .normal⟩, ⟨900, .high⟩]⟩

/-- What the shedder and the enforcer are made with. -/
structure Config where
  shedding : SheddingConfig
  slots : PriorityConfig

/-! ## The counters -/

/-- `AtomicU64`s, which wrap around. -/
structure Counters where
  httpRequestsTotal : UInt64
  inflight : UInt64
  acceptedTotal : UInt64
  rejectedTotal : UInt64
  shedTotal : UInt64
  counter : Priority → UInt64

def Counters.zero : Counters := ⟨0, 0, 0, 0, 0, fun _ => 0⟩

/-- The highest priority that is shed with `inflight` requests under way. -/
def SheddingConfig.activeShedCeiling (config : SheddingConfig) (inflight : UInt64) :
    Option Priority :=
  ((config.thresholds.filter fun t => decide (t.inflightThreshold ≤ inflight)).map
    (·.shedAtOrBelow)).max?

/-- The answer of `should_shed`, but for its counting. -/
def SheddingConfig.shouldShed (config : SheddingConfig) (inflight : UInt64) (priority : Priority) :
    Bool :=
  if priority = .critical then false
  else
    match config.activeShedCeiling inflight with
    | none => false
    | some ceiling => decide (priority ≤ ceiling)

/-- A response of the middleware itself. -/
structure Response where
  status : Nat
  code : String
  message : String
  priority : String

def loadShed (priority : Priority) : Response :=
  ⟨503, "load_shed", "request shed due to high load", priority.asStr⟩

def limitExceeded (priority : Priority) : Response :=
  ⟨429, "priority_limit_exceeded", "priority concurrency limit exceeded", priority.asStr⟩

/-! ## Requests -/

/-- The shedder's response; the handler's own one is `none`. -/
def isShed : Option Response → Bool
  | some response => decide (response.status = 503)
  | none => false

@[simp] theorem isShed_loadShed {p : Priority} : isShed (some (loadShed p)) = true := by
  simp [isShed, loadShed]
@[simp] theorem isShed_limitExceeded {p : Priority} : isShed (some (limitExceeded p)) = false := by
  simp [isShed, limitExceeded]
@[simp] theorem isShed_none : isShed none = false := rfl

/-- The access to a counter that a request comes to next, or its response. -/
inductive Stage
  | arrive
  | beginRequest
  | shouldShed
  | countShed
  | recordRejected
  | recordAccepted
  | load
  | compareExchange (current : UInt64)
  | handler
  | dropGuard (response : Option Response)
  | done (response : Option Response)

structure Request where
  priority : Priority
  stage : Stage

/-- One access of a request in `admission_middleware`, and the code up to the next one. The
permit and the guard are given back when the handler ends, in whatever way. -/
def Request.advance (config : Config) (r : Request) (c : Counters) : Counters × Stage :=
  match r.stage with
  | .arrive => ({ c with httpRequestsTotal := c.httpRequestsTotal + 1 }, .beginRequest)
  | .beginRequest => ({ c with inflight := c.inflight + 1 }, .shouldShed)
  | .shouldShed =>
      (c, if config.shedding.shouldShed c.inflight r.priority then .countShed else .recordAccepted)
  | .countShed => ({ c with shedTotal := c.shedTotal + 1 }, .recordRejected)
  | .recordRejected =>
      ({ c with rejectedTotal := c.rejectedTotal + 1 }, .dropGuard (some (loadShed r.priority)))
  | .recordAccepted => ({ c with acceptedTotal := c.acceptedTotal + 1 }, .load)
  | .load =>
      (c, if config.slots.maxConcurrent r.priority ≠ 0 ∧
          config.slots.maxConcurrent r.priority ≤ c.counter r.priority then
        .dropGuard (some (limitExceeded r.priority))
      else .compareExchange (c.counter r.priority))
  | .compareExchange current =>
      if c.counter r.priority = current then
        ({ c with counter := Function.update c.counter r.priority (current + 1) }, .handler)
      else (c, .load)
  | .handler =>
      ({ c with counter := Function.update c.counter r.priority (c.counter r.priority - 1) },
        .dropGuard none)
  | .dropGuard response => ({ c with inflight := c.inflight - 1 }, .done response)
  | .done response => (c, .done response)

/-- The counters and the requests so far. -/
structure World where
  counters : Counters
  requests : List Request

def World.start : World := ⟨.zero, []⟩

inductive Label
  | request (header : Option String)
  | advance (r : Request)
  | spurious (r : Request)

/-- Requests take turns. A weak compare and swap may fail without a reason. -/
inductive Step (config : Config) : World → Label → World → Prop
  | request {w : World} {header : Option String} :
      Step config w (.request header)
        ⟨w.counters, w.requests ++ [⟨.fromHeaders header, .arrive⟩]⟩
  | advance {c : Counters} {l₁ l₂ : List Request} {r : Request} :
      Step config ⟨c, l₁ ++ r :: l₂⟩ (.advance r)
        ⟨(r.advance config c).1, l₁ ++ { r with stage := (r.advance config c).2 } :: l₂⟩
  | spurious {c : Counters} {l₁ l₂ : List Request} {r : Request} {current : UInt64} :
      r.stage = .compareExchange current →
      Step config ⟨c, l₁ ++ r :: l₂⟩ (.spurious r) ⟨c, l₁ ++ { r with stage := .load } :: l₂⟩

/-- Who goes next: a new request, or the one at a position. -/
inductive Turn
  | request (header : Option String)
  | advance (i : Nat)

def World.turn (config : Config) (w : World) : Turn → Option (Label × World)
  | .request header =>
      some (.request header, ⟨w.counters, w.requests ++ [⟨.fromHeaders header, .arrive⟩]⟩)
  | .advance i =>
      w.requests[i]?.map fun r => (.advance r, ⟨(r.advance config w.counters).1,
        w.requests.set i { r with stage := (r.advance config w.counters).2 }⟩)

/-! ## Where the requests are -/

namespace Stage

/-- The request counts itself among those under way. -/
def counted : Stage → Bool
  | arrive | beginRequest | done _ => false
  | _ => true

/-- The request has been counted as one of the server. -/
def started : Stage → Bool
  | arrive => false
  | _ => true

/-- The shedder has let the request pass, and its handler has not ended. -/
def admitted : Stage → Bool
  | recordAccepted | load | compareExchange _ | handler => true
  | _ => false

/-- The request has a slot. -/
def running : Stage → Bool
  | handler => true
  | _ => false

/-- The shedder has refused the request, and this has been counted. -/
def rejected : Stage → Bool
  | dropGuard response | done response => isShed response
  | _ => false

/-- The shedder has counted the request as shed. -/
def shed : Stage → Bool
  | recordRejected => true
  | dropGuard response | done response => isShed response
  | _ => false

/-- The shedder has let the request pass, and this has been counted. -/
def accepted : Stage → Bool
  | load | compareExchange _ | handler => true
  | dropGuard response | done response => !isShed response
  | _ => false

/-- The request has got its response. -/
def isDone : Stage → Bool
  | done _ => true
  | _ => false

/-- The request has started and is neither accepted nor rejected. -/
def undecided : Stage → Bool
  | beginRequest | shouldShed | countShed | recordRejected | recordAccepted => true
  | _ => false

end Stage

/-- The request has a slot of priority `p`. -/
def Request.holds (p : Priority) (r : Request) : Bool := decide (r.priority = p) && r.stage.running

/-- The request is past the shedder, which may shed it when it sheds priority `p`. -/
def Request.sheddable (p : Priority) (r : Request) : Bool :=
  decide (r.priority ≠ .critical ∧ r.priority ≤ p) && r.stage.admitted

def World.number (w : World) (P : Request → Bool) : Nat := w.requests.countP P

/-! ## One access -/

/-- What an access by a request of priority `p` does to the counters and to its stage. -/
inductive Access (config : Config) (p : Priority) : Counters → Stage → Counters → Stage → Prop
  | arrive {c : Counters} : Access config p c .arrive
      { c with httpRequestsTotal := c.httpRequestsTotal + 1 } .beginRequest
  | beginRequest {c : Counters} : Access config p c .beginRequest
      { c with inflight := c.inflight + 1 } .shouldShed
  | shed {c : Counters} : config.shedding.shouldShed c.inflight p = true →
      Access config p c .shouldShed c .countShed
  | pass {c : Counters} : config.shedding.shouldShed c.inflight p = false →
      Access config p c .shouldShed c .recordAccepted
  | countShed {c : Counters} : Access config p c .countShed
      { c with shedTotal := c.shedTotal + 1 } .recordRejected
  | recordRejected {c : Counters} : Access config p c .recordRejected
      { c with rejectedTotal := c.rejectedTotal + 1 } (.dropGuard (some (loadShed p)))
  | recordAccepted {c : Counters} : Access config p c .recordAccepted
      { c with acceptedTotal := c.acceptedTotal + 1 } .load
  | full {c : Counters} : config.slots.maxConcurrent p ≠ 0 →
      config.slots.maxConcurrent p ≤ c.counter p →
      Access config p c .load c (.dropGuard (some (limitExceeded p)))
  | room {c : Counters} :
      (config.slots.maxConcurrent p ≠ 0 → c.counter p < config.slots.maxConcurrent p) →
      Access config p c .load c (.compareExchange (c.counter p))
  | take {c : Counters} : Access config p c (.compareExchange (c.counter p))
      { c with counter := Function.update c.counter p (c.counter p + 1) } .handler
  | retry {c : Counters} {current : UInt64} : Access config p c (.compareExchange current) c .load
  | release {c : Counters} : Access config p c .handler
      { c with counter := Function.update c.counter p (c.counter p - 1) } (.dropGuard none)
  | leave {c : Counters} {response : Option Response} : Access config p c (.dropGuard response)
      { c with inflight := c.inflight - 1 } (.done response)
  | rest {c : Counters} {response : Option Response} :
      Access config p c (.done response) c (.done response)

section Steps

variable {config : Config} {w w' : World} {ks : List Label} {k : Label} {c c' : Counters}
  {l₁ l₂ : List Request} {p : Priority} {stage stage' : Stage} {P : Request → Bool}

theorem access_advance (r : Request) : Access config r.priority c r.stage
    (r.advance config c).1 (r.advance config c).2 := by
  cases r with
  | mk p stage =>
      cases stage with
      | arrive => exact .arrive
      | beginRequest => exact .beginRequest
      | shouldShed =>
          show Access config p c .shouldShed c
            (if config.shedding.shouldShed c.inflight p then .countShed else .recordAccepted)
          split
          · next h => exact .shed h
          · next h => exact .pass (Bool.eq_false_iff.mpr h)
      | countShed => exact .countShed
      | recordRejected => exact .recordRejected
      | recordAccepted => exact .recordAccepted
      | load =>
          unfold Request.advance
          dsimp only
          split
          · next h => exact .full h.1 h.2
          · next h => exact .room fun hlimit => UInt64.not_le.mp fun hle => h ⟨hlimit, hle⟩
      | compareExchange current =>
          unfold Request.advance
          dsimp only
          split
          · next h =>
              subst h
              exact .take
          · exact .retry
      | handler => exact .release
      | dropGuard response => exact .leave
      | done response => exact .rest

/-- A step is the arrival of a request or an access by one of those that are there. -/
theorem Step.cases (h : Step config w k w') :
    (∃ p, w' = ⟨w.counters, w.requests ++ [⟨p, .arrive⟩]⟩) ∨
    ∃ l₁ l₂ p stage c' stage', w.requests = l₁ ++ ⟨p, stage⟩ :: l₂ ∧
      w' = ⟨c', l₁ ++ ⟨p, stage'⟩ :: l₂⟩ ∧ Access config p w.counters stage c' stage' := by
  cases h with
  | request => exact .inl ⟨_, rfl⟩
  | advance => exact .inr ⟨_, _, _, _, _, _, rfl, rfl, access_advance _⟩
  | spurious hstage =>
      -- `compare_exchange_weak` may fail without a reason
      refine .inr ⟨_, _, _, _, _, _, rfl, rfl, ?_⟩
      rw [hstage]
      exact .retry

theorem step_of_turn {turn : Turn} (h : w.turn config turn = some (k, w')) :
    Step config w k w' := by
  cases turn with
  | request header =>
      cases h
      exact .request
  | advance i =>
      obtain ⟨r, hr, heq⟩ := Option.map_eq_some_iff.mp h
      cases heq
      obtain ⟨c, requests⟩ := w
      obtain ⟨hi, rfl⟩ := List.getElem?_eq_some_iff.mp hr
      have hsplit : requests = requests.take i ++ requests[i] :: requests.drop (i + 1) := by
        rw [← List.drop_eq_getElem_cons hi, List.take_append_drop]
      have hset : requests.set i { requests[i] with stage := (requests[i].advance config c).2 } =
          requests.take i ++ { requests[i] with stage := (requests[i].advance config c).2 } ::
            requests.drop (i + 1) := by
        rw [List.set_eq_take_append_cons_drop, if_pos hi]
      have hstep : Step config ⟨c, requests.take i ++ requests[i] :: requests.drop (i + 1)⟩
          (.advance requests[i]) _ := .advance
      rwa [← hsplit, ← hset] at hstep

theorem run_of_turns {turns : List Turn}
    (h : play (World.turn config) (fun _ _ => true) .start turns = some (ks, w)) :
    Run (Step config) .start ks w :=
  have hturn : ∀ (w : World) turn k w', w.turn config turn = some (k, w') → Step config w k w' :=
    fun _ _ _ _ => step_of_turn
  (run_of_play hturn h).unguard

theorem number_middle : World.number ⟨c, l₁ ++ ⟨p, stage⟩ :: l₂⟩ P =
    (l₁ ++ l₂).countP P + (P ⟨p, stage⟩).toNat :=
  countP_middle

theorem number_arrive {l : List Request} : World.number ⟨c, l ++ [⟨p, .arrive⟩]⟩ P =
    World.number ⟨c, l⟩ P + (P ⟨p, .arrive⟩).toNat := by
  show (l ++ (⟨p, .arrive⟩ : Request) :: []).countP P = _
  rw [countP_middle, List.append_nil]
  rfl

/-! ## What the counters count -/

/-- Each counter has the number of requests of one kind. -/
structure Accounted (w : World) : Prop where
  total : w.counters.httpRequestsTotal = .ofNat (w.number (·.stage.started))
  inflight : w.counters.inflight = .ofNat (w.number (·.stage.counted))
  accepted : w.counters.acceptedTotal = .ofNat (w.number (·.stage.accepted))
  rejected : w.counters.rejectedTotal = .ofNat (w.number (·.stage.rejected))
  shed : w.counters.shedTotal = .ofNat (w.number (·.stage.shed))
  slots : ∀ p, w.counters.counter p = .ofNat (w.number (·.holds p))

/-- The counts of a request, and of the others. -/
theorem ofNat_number : UInt64.ofNat (World.number ⟨c, l₁ ++ ⟨p, stage⟩ :: l₂⟩ P) =
    .ofNat ((l₁ ++ l₂).countP P) + .ofNat (P ⟨p, stage⟩).toNat := by
  rw [number_middle, UInt64.ofNat_add]

theorem accounted_access (h : Accounted ⟨c, l₁ ++ ⟨p, stage⟩ :: l₂⟩)
    (haccess : Access config p c stage c' stage') :
    Accounted ⟨c', l₁ ++ ⟨p, stage'⟩ :: l₂⟩ where
  total := by
    have hbefore : c.httpRequestsTotal = _ := h.total
    rw [ofNat_number] at hbefore ⊢
    generalize UInt64.ofNat _ = n at hbefore ⊢
    cases haccess <;> simp [hbefore, Stage.started]
  inflight := by
    have hbefore : c.inflight = _ := h.inflight
    rw [ofNat_number] at hbefore ⊢
    generalize UInt64.ofNat _ = n at hbefore ⊢
    cases haccess <;> simp [hbefore, Stage.counted]
  accepted := by
    have hbefore : c.acceptedTotal = _ := h.accepted
    rw [ofNat_number] at hbefore ⊢
    generalize UInt64.ofNat _ = n at hbefore ⊢
    cases haccess <;> simp [hbefore, Stage.accepted]
  rejected := by
    have hbefore : c.rejectedTotal = _ := h.rejected
    rw [ofNat_number] at hbefore ⊢
    generalize UInt64.ofNat _ = n at hbefore ⊢
    cases haccess <;> simp [hbefore, Stage.rejected]
  shed := by
    have hbefore : c.shedTotal = _ := h.shed
    rw [ofNat_number] at hbefore ⊢
    generalize UInt64.ofNat _ = n at hbefore ⊢
    cases haccess <;> simp [hbefore, Stage.shed]
  slots q := by
    have hbefore : c.counter q = _ := h.slots q
    rw [ofNat_number] at hbefore ⊢
    generalize UInt64.ofNat _ = n at hbefore ⊢
    rcases eq_or_ne p q with rfl | hne
    · cases haccess <;> simp [hbefore, Request.holds, Stage.running]
    · cases haccess <;> simp [hbefore, Request.holds, hne, hne.symm]

theorem accounted_step (h : Accounted w) (hstep : Step config w k w') : Accounted w' := by
  rcases hstep.cases with ⟨p, rfl⟩ | ⟨l₁, l₂, p, stage, c', stage', hrequests, rfl, haccess⟩
  · obtain ⟨total, inflight, accepted, rejected, shed, slots⟩ := h
    constructor <;> simpa [number_arrive, Stage.started, Stage.counted, Stage.accepted,
      Stage.rejected, Stage.shed, Stage.running, Request.holds]
  · obtain ⟨c, requests⟩ := w
    cases hrequests
    exact accounted_access h haccess

theorem accounted_of_run (hrun : Run (Step config) .start ks w) : Accounted w :=
  hrun.invariant ⟨rfl, rfl, rfl, rfl, rfl, fun _ => rfl⟩ fun _ _ _ => accounted_step

theorem Stage.toNat_started (stage : Stage) : stage.started.toNat =
    stage.accepted.toNat + stage.rejected.toNat + stage.undecided.toNat := by
  cases stage with
  | dropGuard response | done response =>
      simp only [started, accepted, rejected, undecided]
      cases isShed response <;> rfl
  | _ => rfl

/-- A request that has started is accepted, rejected or on the way. -/
theorem number_started : w.number (·.stage.started) = w.number (·.stage.accepted) +
    w.number (·.stage.rejected) + w.number (·.stage.undecided) := by
  obtain ⟨c, requests⟩ := w
  show requests.countP _ = requests.countP _ + requests.countP _ + requests.countP _
  induction requests with
  | nil => rfl
  | cons r rs ih =>
      have hone (P : Request → Bool) : (r :: rs).countP P = rs.countP P + (P r).toNat :=
        @countP_middle _ [] rs r P
      rw [hone, hone, hone, hone, ih, r.stage.toNat_started]
      omega

theorem Stage.exists_done (h : stage.isDone = true) : ∃ response, stage = .done response := by
  cases stage with
  | done response => exact ⟨response, rfl⟩
  | _ => cases h

/-- Nothing of a kind that no request is of. -/
theorem number_eq_zero (h : ∀ r ∈ w.requests, P r = false) : w.number P = 0 :=
  List.countP_eq_zero.mpr fun r hr => by simp [h r hr]

/-! ## Slots -/

/-- No more requests have a slot than there are, and none is about to take one too many. -/
structure SlotsBounded (config : Config) (w : World) : Prop where
  taken : ∀ p, config.slots.maxConcurrent p ≠ 0 →
    w.number (·.holds p) ≤ (config.slots.maxConcurrent p).toNat
  seen : ∀ r ∈ w.requests, ∀ current, r.stage = .compareExchange current →
    config.slots.maxConcurrent r.priority ≠ 0 → current < config.slots.maxConcurrent r.priority

/-- The number of requests with a slot fits into the counter. -/
theorem number_holds (h : Accounted w) (hslots : SlotsBounded config w)
    (hlimit : config.slots.maxConcurrent p ≠ 0) :
    w.number (·.holds p) = (w.counters.counter p).toNat := by
  have hle := hslots.taken p hlimit
  rw [h.slots p, UInt64.toNat_ofNat_of_lt']
  exact hle.trans_lt (UInt64.toNat_lt _)

theorem slotsBounded_access (h : Accounted ⟨c, l₁ ++ ⟨p, stage⟩ :: l₂⟩)
    (hslots : SlotsBounded config ⟨c, l₁ ++ ⟨p, stage⟩ :: l₂⟩)
    (haccess : Access config p c stage c' stage') :
    SlotsBounded config ⟨c', l₁ ++ ⟨p, stage'⟩ :: l₂⟩ := by
  constructor
  · intro q hlimit
    have hbefore := hslots.taken q hlimit
    have hnumber := number_holds h hslots hlimit
    rw [number_middle] at hbefore hnumber ⊢
    generalize (l₁ ++ l₂).countP _ = n at hbefore hnumber ⊢
    rcases eq_or_ne p q with rfl | hne
    · cases haccess with
      | take =>
          -- the counter is what was loaded, and that was below the bound
          have hroom : c.counter p < config.slots.maxConcurrent p :=
            hslots.seen _ (List.mem_append_right _ List.mem_cons_self) _ rfl hlimit
          have hlt := UInt64.lt_iff_toNat_lt.mp hroom
          simp [Request.holds, Stage.running] at hnumber ⊢
          omega
      | _ => simp [Request.holds, Stage.running] at hbefore ⊢; omega
    · cases haccess <;> simpa [Request.holds, hne] using hbefore
  · refine forall_replaced (fun r hr => hslots.seen r (mem_rest rfl hr)) ?_
    intro current hstage hlimit
    cases haccess with
    | room hroom =>
        cases hstage
        exact hroom hlimit
    | _ => cases hstage

theorem slotsBounded_step (h : Accounted w) (hslots : SlotsBounded config w)
    (hstep : Step config w k w') : SlotsBounded config w' := by
  rcases hstep.cases with ⟨p, rfl⟩ | ⟨l₁, l₂, p, stage, c', stage', hrequests, rfl, haccess⟩
  · refine ⟨fun q hlimit => ?_, fun r hr current hstage => ?_⟩
    · simpa [number_arrive, Request.holds, Stage.running] using hslots.taken q hlimit
    · rcases List.mem_append.mp hr with hr | hr
      · exact hslots.seen r hr current hstage
      · obtain rfl := List.mem_singleton.mp hr
        cases hstage
  · obtain ⟨c, requests⟩ := w
    cases hrequests
    exact slotsBounded_access h hslots haccess

theorem slotsBounded_of_run (hrun : Run (Step config) .start ks w) : SlotsBounded config w := by
  have hboth : Accounted w ∧ SlotsBounded config w := by
    refine hrun.invariant (I := fun w => Accounted w ∧ SlotsBounded config w)
      ⟨⟨rfl, rfl, rfl, rfl, rfl, fun _ => rfl⟩, fun _ _ => Nat.zero_le _,
        fun _ hr => absurd hr List.not_mem_nil⟩ ?_
    rintro t k u ⟨h, hslots⟩ hstep
    exact ⟨accounted_step h hstep, slotsBounded_step h hslots hstep⟩
  exact hboth.2

/-- A request with a slot bound is turned away exactly if all slots are taken at that moment. -/
theorem refused_iff (h : Accounted w) (hslots : SlotsBounded config w)
    (hlimit : config.slots.maxConcurrent p ≠ 0) :
    ((Request.mk p .load).advance config w.counters).2 = .dropGuard (some (limitExceeded p)) ↔
      w.number (·.holds p) = (config.slots.maxConcurrent p).toNat := by
  have hle := hslots.taken p hlimit
  rw [number_holds h hslots hlimit] at hle ⊢
  unfold Request.advance
  simp only [hlimit, ne_eq, not_false_eq_true, true_and, UInt64.le_iff_toNat_le]
  split
  · next hfull => exact iff_of_true rfl (Nat.le_antisymm hle hfull)
  · next hroom => exact iff_of_false (fun h => by cases h) fun h => hroom h.ge

/-! ## Shedding -/

theorem shouldShed_iff {inflight : UInt64} : config.shedding.shouldShed inflight p = true ↔
    p ≠ .critical ∧ ∃ t ∈ config.shedding.thresholds,
      t.inflightThreshold ≤ inflight ∧ p ≤ t.shedAtOrBelow := by
  unfold SheddingConfig.shouldShed
  split
  · next hcritical => exact iff_of_false (by simp) fun h => h.1 hcritical
  · next hcritical =>
      refine Iff.trans ?_ (and_iff_right hcritical).symm
      unfold SheddingConfig.activeShedCeiling
      split
      · next hnone =>
          have hinactive := List.map_eq_nil_iff.mp (List.max?_eq_none_iff.mp hnone)
          refine iff_of_false Bool.false_ne_true ?_
          rintro ⟨t, ht, hactive, -⟩
          exact List.filter_eq_nil_iff.mp hinactive t ht (decide_eq_true hactive)
      · next ceiling hceiling =>
          obtain ⟨hmem, hmax⟩ := List.max?_eq_some_iff.mp hceiling
          rw [decide_eq_true_iff]
          constructor
          · intro hle
            obtain ⟨t, ht, rfl⟩ := List.mem_map.mp hmem
            obtain ⟨ht, hactive⟩ := List.mem_filter.mp ht
            exact ⟨t, ht, of_decide_eq_true hactive, hle⟩
          · rintro ⟨t, ht, hactive, hle⟩
            exact hle.trans (hmax _ (List.mem_map_of_mem
              (List.mem_filter.mpr ⟨ht, decide_eq_true hactive⟩)))

/-- Fewer requests than each threshold are past the shedder at the priorities that it sheds. -/
def Shedding (config : Config) (w : World) : Prop :=
  ∀ t ∈ config.shedding.thresholds, w.number (·.sheddable t.shedAtOrBelow) = 0 ∨
    w.number (·.sheddable t.shedAtOrBelow) < t.inflightThreshold.toNat

/-- Whoever is past the shedder is counted. -/
theorem number_sheddable_le : w.number (·.sheddable p) ≤ w.number (·.stage.counted) := by
  refine List.countP_mono_left fun r _ hr => ?_
  have hadmitted : r.stage.admitted = true := (Bool.and_eq_true_iff.mp hr).2
  unfold Stage.admitted at hadmitted
  unfold Stage.counted
  split at hadmitted <;> simp_all

theorem Shedding.mono (h : Shedding config w)
    (hle : ∀ p, w'.number (·.sheddable p) ≤ w.number (·.sheddable p)) : Shedding config w' := by
  intro t ht
  rcases h t ht with hzero | hlt
  · exact .inl (Nat.le_zero.mp (hzero ▸ hle _))
  · exact .inr ((hle _).trans_lt hlt)

/-- A request that the shedder lets pass has counted itself already, and so have all others that
are past the shedder. -/
theorem shedding_pass (h : Accounted ⟨c, l₁ ++ ⟨p, .shouldShed⟩ :: l₂⟩)
    (hfits : World.number ⟨c, l₁ ++ ⟨p, .shouldShed⟩ :: l₂⟩ (·.stage.counted) < 2 ^ 64)
    (hshedding : Shedding config ⟨c, l₁ ++ ⟨p, .shouldShed⟩ :: l₂⟩)
    (hnot : config.shedding.shouldShed c.inflight p = false) :
    Shedding config ⟨c, l₁ ++ ⟨p, .recordAccepted⟩ :: l₂⟩ := by
  intro t ht
  have hload : c.inflight.toNat = World.number ⟨c, l₁ ++ ⟨p, .recordAccepted⟩ :: l₂⟩
      (·.stage.counted) := by
    have hinflight : c.inflight = _ := h.inflight
    rw [hinflight, UInt64.toNat_ofNat_of_lt' hfits, number_middle, number_middle]
    rfl
  rcases em (p ≠ .critical ∧ p ≤ t.shedAtOrBelow) with ⟨hcritical, hbelow⟩ | hother
  · refine .inr (number_sheddable_le.trans_lt ?_)
    rw [← hload]
    -- if the threshold were reached, the request would have been shed
    refine UInt64.lt_iff_toNat_lt.mp (UInt64.not_le.mp fun hactive => ?_)
    have hshed := shouldShed_iff.mpr ⟨hcritical, t, ht, hactive, hbelow⟩
    rw [hnot] at hshed
    cases hshed
  · have hbefore := hshedding t ht
    rw [number_middle] at hbefore ⊢
    simpa [Request.sheddable, hother] using hbefore

theorem shedding_access (h : Accounted ⟨c, l₁ ++ ⟨p, stage⟩ :: l₂⟩)
    (hfits : World.number ⟨c, l₁ ++ ⟨p, stage⟩ :: l₂⟩ (·.stage.counted) < 2 ^ 64)
    (hshedding : Shedding config ⟨c, l₁ ++ ⟨p, stage⟩ :: l₂⟩)
    (haccess : Access config p c stage c' stage') :
    Shedding config ⟨c', l₁ ++ ⟨p, stage'⟩ :: l₂⟩ := by
  cases haccess with
  | pass hnot => exact shedding_pass h hfits hshedding hnot
  | rest => exact hshedding
  | _ =>
      refine hshedding.mono fun q => ?_
      rw [number_middle, number_middle]
      simp [Request.sheddable, Stage.admitted]

/-- Every request has come in a step of its own. -/
theorem requests_le (hrun : Run (Step config) .start ks w) : w.requests.length ≤ ks.length := by
  refine hrun.invariantHistory (I := fun ks w => w.requests.length ≤ ks.length) le_rfl ?_
  intro ks t k u hle hstep
  rcases hstep.cases with ⟨p, rfl⟩ | ⟨l₁, l₂, p, stage, c', stage', hrequests, rfl, -⟩
  · simpa using hle
  · rw [hrequests] at hle
    simp at hle ⊢
    exact hle.trans (Nat.le_succ _)

theorem shedding_step (h : Accounted w) (hfits : w.requests.length < 2 ^ 64)
    (hshedding : Shedding config w) (hstep : Step config w k w') : Shedding config w' := by
  rcases hstep.cases with ⟨p, rfl⟩ | ⟨l₁, l₂, p, stage, c', stage', hrequests, rfl, haccess⟩
  · refine hshedding.mono fun q => le_of_eq ?_
    rw [number_arrive]
    simp [Request.sheddable, Stage.admitted]
  · obtain ⟨c, requests⟩ := w
    cases hrequests
    exact shedding_access h (List.countP_le_length.trans_lt hfits) hshedding haccess

theorem shedding_of_run (hrun : Run (Step config) .start ks w) (hsteps : ks.length < 2 ^ 64) :
    Shedding config w := by
  induction hrun with
  | start => exact fun _ _ => .inl rfl
  | next hrun hstep ih =>
      have hfits := Nat.lt_of_succ_lt hsteps
      exact shedding_step (accounted_of_run hrun) ((requests_le hrun).trans_lt hfits) (ih hfits)
        hstep

/-! ## Every run -/

/-- In every run, each request that has started is accepted, rejected or on the way; when all
have got their response, none is counted as under way and no slot is taken. -/
theorem requests_accounted (hrun : Run (Step config) .start ks w) :
    w.counters.httpRequestsTotal = w.counters.acceptedTotal + w.counters.rejectedTotal +
        .ofNat (w.number (·.stage.undecided)) ∧
      ((∀ r ∈ w.requests, r.stage.isDone = true) →
        w.counters.inflight = 0 ∧ (∀ p, w.counters.counter p = 0) ∧
          w.counters.shedTotal = w.counters.rejectedTotal) := by
  have h := accounted_of_run hrun
  refine ⟨?_, fun hdone => ⟨?_, fun p => ?_, ?_⟩⟩
  · rw [h.total, h.accepted, h.rejected, number_started, UInt64.ofNat_add, UInt64.ofNat_add]
  · rw [h.inflight, number_eq_zero]
    · rfl
    · intro r hr
      obtain ⟨response, hstage⟩ := Stage.exists_done (hdone r hr)
      simp [hstage, Stage.counted]
  · rw [h.slots p, number_eq_zero]
    · rfl
    · intro r hr
      obtain ⟨response, hstage⟩ := Stage.exists_done (hdone r hr)
      simp [Request.holds, hstage, Stage.running]
  · rw [h.shed, h.rejected]
    refine congrArg _ (List.countP_congr fun r hr => ?_)
    obtain ⟨response, hstage⟩ := Stage.exists_done (hdone r hr)
    simp [hstage, Stage.shed, Stage.rejected]

/-- A request that has no header and finds room. -/
theorem request_done : ∃ ks w, Run (Step ⟨.default, .default⟩) .start ks w ∧
    w.counters.acceptedTotal = 1 ∧ w.counters.inflight = 0 ∧ w.counters.counter .normal = 0 := by
  have hplay : (play (World.turn ⟨.default, .default⟩) (fun _ _ => true) .start
      (.request none :: List.replicate 8 (.advance 0))).any (fun p =>
        decide (p.2.counters.acceptedTotal = 1) && p.2.requests.all (·.stage.isDone)) = true := by
    decide +kernel
  obtain ⟨⟨ks, w⟩, hrun, hends⟩ := (Option.any_eq_true _ _).mp hplay
  obtain ⟨haccepted, hdone⟩ := Bool.and_eq_true_iff.mp hends
  have hrun := run_of_turns hrun
  obtain ⟨hinflight, hslots, -⟩ := (requests_accounted hrun).2 (List.all_eq_true.mp hdone)
  exact ⟨ks, w, hrun, of_decide_eq_true haccepted, hinflight, hslots .normal⟩

/-- In every run, the slots of a priority that are taken are those its counter has; no more are
taken than there are, and a request is turned away exactly if they all are at that moment. -/
theorem slots_bounded (hrun : Run (Step config) .start ks w) (p : Priority) :
    w.counters.counter p = .ofNat (w.number (·.holds p)) ∧
      (config.slots.maxConcurrent p ≠ 0 →
        w.number (·.holds p) ≤ (config.slots.maxConcurrent p).toNat ∧
          (((Request.mk p .load).advance config w.counters).2 =
              .dropGuard (some (limitExceeded p)) ↔
            w.number (·.holds p) = (config.slots.maxConcurrent p).toNat)) := by
  have haccounted := accounted_of_run hrun
  have hslots := slotsBounded_of_run hrun
  exact ⟨haccounted.slots p, fun hlimit =>
    ⟨hslots.taken p hlimit, refused_iff haccounted hslots hlimit⟩⟩

/-- With one slot for requests of low priority, the second one is turned away. -/
theorem slot_taken : ∃ ks w, Run (Step ⟨.default, ⟨1, 0, 0, 0⟩⟩) .start ks w ∧
    ((Request.mk .low .load).advance ⟨.default, ⟨1, 0, 0, 0⟩⟩ w.counters).2 =
      .dropGuard (some (limitExceeded .low)) := by
  have hplay : (play (World.turn ⟨.default, ⟨1, 0, 0, 0⟩⟩) (fun _ _ => true) .start
      (.request (some "low") :: List.replicate 6 (.advance 0))).any (fun p =>
        decide (p.2.number (·.holds .low) = 1)) = true := by
    decide +kernel
  obtain ⟨⟨ks, w⟩, hrun, htaken⟩ := (Option.any_eq_true _ _).mp hplay
  have hrun := run_of_turns hrun
  exact ⟨ks, w, hrun, ((slots_bounded hrun .low).2 (by decide)).2.mpr (of_decide_eq_true htaken)⟩

/-- In every run that is too short for a counter to wrap around: below each threshold's load only,
requests get past the shedder at the priorities that it sheds, whoever looks at the load when. A
request is shed exactly if the requests under way reach such a threshold at that moment. -/
theorem shedding_bounded (hrun : Run (Step config) .start ks w) (hsteps : ks.length < 2 ^ 64) :
    (∀ t ∈ config.shedding.thresholds, w.number (·.sheddable t.shedAtOrBelow) = 0 ∨
      w.number (·.sheddable t.shedAtOrBelow) < t.inflightThreshold.toNat) ∧
    ∀ p, ((Request.mk p .shouldShed).advance config w.counters).2 = .countShed ↔
      p ≠ .critical ∧ ∃ t ∈ config.shedding.thresholds,
        t.inflightThreshold.toNat ≤ w.number (·.stage.counted) ∧ p ≤ t.shedAtOrBelow := by
  refine ⟨shedding_of_run hrun hsteps, fun p => ?_⟩
  have hfits : w.number (·.stage.counted) < 2 ^ 64 :=
    List.countP_le_length.trans_lt ((requests_le hrun).trans_lt hsteps)
  have hload : w.counters.inflight.toNat = w.number (·.stage.counted) := by
    rw [(accounted_of_run hrun).inflight, UInt64.toNat_ofNat_of_lt' hfits]
  have hiff : config.shedding.shouldShed w.counters.inflight p = true ↔ _ := shouldShed_iff
  simp only [UInt64.le_iff_toNat_le, hload] at hiff
  refine Iff.trans ?_ hiff
  show (if config.shedding.shouldShed w.counters.inflight p then Stage.countShed
    else .recordAccepted) = .countShed ↔ _
  split
  · next h => exact iff_of_true rfl h
  · next h => exact iff_of_false (fun h => by cases h) h

/-- A request of low priority finds itself to be the one that reaches the threshold. -/
theorem lone_request_shed : ∃ ks w, Run (Step ⟨⟨[⟨1, .low⟩]⟩, .default⟩) .start ks w ∧
    ((Request.mk .low .shouldShed).advance ⟨⟨[⟨1, .low⟩]⟩, .default⟩ w.counters).2 =
      .countShed := by
  have hplay : (play (World.turn ⟨⟨[⟨1, .low⟩]⟩, .default⟩) (fun _ _ => true) .start
      (.request (some " LOW") :: List.replicate 2 (.advance 0))).any (fun p =>
        decide (p.1.length < 2 ^ 64 ∧ 1 ≤ p.2.number (·.stage.counted))) = true := by
    decide +kernel
  obtain ⟨⟨ks, w⟩, hrun, hload⟩ := (Option.any_eq_true _ _).mp hplay
  obtain ⟨hsteps, hcounted⟩ := of_decide_eq_true hload
  have hrun := run_of_turns hrun
  exact ⟨ks, w, hrun, ((shedding_bounded hrun hsteps).2 .low).mpr
    ⟨by decide, _, List.mem_cons_self, hcounted, le_rfl⟩⟩

end Steps

end Heirloom.Backend.Admission
