import Mathlib.Algebra.BigOperators.Group.List.Basic
import Mathlib.Algebra.Order.Group.Multiset
import Mathlib.Data.Fintype.EquivFin
import Mathlib.Tactic.Abel
import Heirloom.Backend.HealthRouting
import Heirloom.Lib.Replaced
import Heirloom.Lib.Runs
import Heirloom.Lib.Tally

/-!
# Delivery of webhooks

An event goes to every registration that wants it, but for those whose endpoint is routed
around. A delivery is attempted five times and then put into the dead-letter queue. Calls and
delivery tasks run interleaved, attempt by attempt.

Results:
1. `delivered_iff`: when all tasks have finished, every event has reached or has a dead letter
   for every registration that wanted it, and every registered endpoint can receive deliveries
   again, exactly if no endpoint was found with five failures in a row, neither by an event nor
   at the end, no count of requests has overflowed, and no delivery came to the queue after a
   count of attempts has.
2. `skipped_delivery`: an event that is lost after an endpoint has failed five times.
-/

namespace Heirloom.Backend.WebhookDelivery

open Runs Replaced HealthRouting

/-! ## Registrations -/

inductive WebhookEventType
  | vaultCreated
  | vaultCheckedIn
  | vaultReleased
  | vaultDeposit
  | vaultWithdrawal
  | beneficiaryUpdated
  | vaultPaused
  | vaultResumed
deriving DecidableEq

structure WebhookRegistration where
  id : String
  url : String
  vaultId : Option String
  eventTypes : List WebhookEventType
  createdAt : Nat
  active : Bool
deriving DecidableEq

structure RegisterWebhookRequest where
  url : String
  vaultId : Option String
  eventTypes : List WebhookEventType

/-- The identifier comes from the generator of UUIDs. -/
def registerWebhook (store : List WebhookRegistration) (body : RegisterWebhookRequest)
    (id : String) (now : Nat) : Except String WebhookRegistration × List WebhookRegistration :=
  if body.url = "" then (.error "url must not be empty", store)
  else
    let registration : WebhookRegistration :=
      ⟨id, body.url, body.vaultId, body.eventTypes, now, true⟩
    (.ok registration, store ++ [registration])

/-- Whether there was such a registration, and the registrations after it is deactivated. -/
def deleteWebhook (store : List WebhookRegistration) (id : String) :
    Bool × List WebhookRegistration :=
  (store.any (·.id = id),
    store.map fun wh => if wh.id = id then { wh with active := false } else wh)

/-- The filter of `deliver_event`. -/
def WebhookRegistration.wants (wh : WebhookRegistration) (eventType : WebhookEventType)
    (vaultId : String) : Bool :=
  if !wh.active then false
  else if wh.vaultId.any (· ≠ vaultId) then false
  else if !wh.eventTypes.isEmpty && !wh.eventTypes.contains eventType then false
  else true

/-! ## Payloads and dead letters -/

/-- An event with its data, a JSON value. -/
structure WebhookPayload (D : Type) where
  id : String
  eventType : WebhookEventType
  vaultId : String
  timestamp : Nat
  data : D

inductive DlqStatus
  | pending
  | replayed
  | replayFailed

structure DlqEntry (D : Type) where
  id : String
  source : String
  target : Option String
  payload : WebhookPayload D
  error : String
  attempts : Nat
  status : DlqStatus
  createdAt : Nat
  lastAttemptAt : Nat

variable {D : Type}

/-- The queue, and whether a panic has poisoned its lock. -/
structure DlqState (D : Type) where
  store : List (DlqEntry D)
  poisoned : Bool

def DlqState.new : DlqState D := ⟨[], false⟩

/-- Nothing is added behind a poisoned lock. -/
def routeToDlq (s : DlqState D) (id : String) (now : Nat) (source : String)
    (target : Option String) (payload : WebhookPayload D) (error : String) (attempts : Nat) :
    DlqState D :=
  if s.poisoned then s
  else { s with
    store := s.store ++ [⟨id, source, target, payload, error, attempts, .pending, now, now⟩] }

/-- Another attempt of the entry can be counted. -/
def DlqEntry.Countable (entry : DlqEntry D) : Prop := entry.attempts < u32Max

instance (entry : DlqEntry D) : Decidable entry.Countable := inferInstanceAs (Decidable (_ < _))

/-- What a replay leaves, whatever the endpoint answers. The sum of the attempts is checked, under
the lock. -/
def markStatus (s : DlqState D) (id : String) (status : DlqStatus) (now : Nat) : DlqState D :=
  if s.poisoned then s
  else
    ⟨s.store.map fun entry =>
        if entry.id = id then
          { entry with
            status := status
            lastAttemptAt := now
            attempts := if entry.Countable then entry.attempts + 1 else entry.attempts }
        else entry,
      s.store.any fun entry => entry.id = id ∧ ¬ entry.Countable⟩

def dlqSource (registration : WebhookRegistration) : String := "webhook:" ++ registration.id

/-! ## Deliveries -/

def maxRetries : Nat := 4

/-- What a delivery does next: send a request, record its outcome, or give up. -/
inductive Stage
  | send
  | record (success : Bool)
  | exhausted
deriving DecidableEq

/-- A run of `attempt_delivery`. -/
structure DeliveryTask (D : Type) where
  registration : WebhookRegistration
  payload : WebhookPayload D
  attempt : Nat
  stage : Stage

/-- A call of `deliver_event`, with the registrations it has not come to yet. -/
structure Dispatch (D : Type) where
  payload : WebhookPayload D
  remaining : List WebhookRegistration

/-- The task after an outcome has been recorded, unless it is over. -/
def DeliveryTask.afterRecord (t : DeliveryTask D) (success : Bool) : Option (DeliveryTask D) :=
  if success then none
  else if t.attempt < maxRetries then some { t with attempt := t.attempt + 1, stage := .send }
  else some { t with stage := .exhausted }

/-- The three stores and what is under way. For the statements below there are also the events
raised so far, with the registrations of that moment, and the deliveries that were accepted. -/
structure World (D : Type) where
  registrations : List WebhookRegistration
  health : HealthRoutingState
  dlq : DlqState D
  dispatches : List (Dispatch D)
  tasks : List (DeliveryTask D)
  raised : List (WebhookPayload D × List WebhookRegistration)
  accepted : List (WebhookPayload D × WebhookRegistration)

def World.start : World D := ⟨[], .new, .new, [], [], [], []⟩

inductive Label (D : Type)
  | register (body : RegisterWebhookRequest) (id : String) (now : Nat)
  | delete (id : String)
  | raise (payload : WebhookPayload D)
  | check (payload : WebhookPayload D) (registration : WebhookRegistration)
  | returned (payload : WebhookPayload D)
  | send (t : DeliveryTask D) (success : Bool)
  | record (t : DeliveryTask D) (now : Nat)
  | deadLetter (t : DeliveryTask D) (id : String) (now : Nat)
  | replay (id : String) (status : DlqStatus) (now : Nat)

/-- Calls and tasks take turns. UUIDs are fresh, and the registrations that want an event are
gone through in any order. A panic ends the call or the task that meets it. -/
inductive Step : World D → Label D → World D → Prop
  | register {w : World D} {body : RegisterWebhookRequest} {id : String} {now : Nat} :
      (∀ r ∈ w.registrations, r.id ≠ id) →
      Step w (.register body id now)
        { w with registrations := (registerWebhook w.registrations body id now).2 }
  | delete {w : World D} {id : String} :
      Step w (.delete id) { w with registrations := (deleteWebhook w.registrations id).2 }
  | raise {w : World D} {payload : WebhookPayload D} :
      (∀ q ∈ w.raised, q.1.id ≠ payload.id) →
      Step w (.raise payload)
        { w with
          dispatches := w.dispatches ++ [⟨payload,
            w.registrations.filter (·.wants payload.eventType payload.vaultId)⟩]
          raised := (payload, w.registrations) :: w.raised }
  | route {w : World D} {l₁ l₂ : List (Dispatch D)} {m₁ m₂ : List WebhookRegistration}
      {payload : WebhookPayload D} {r : WebhookRegistration} :
      w.dispatches = l₁ ++ ⟨payload, m₁ ++ r :: m₂⟩ :: l₂ →
      w.health.shouldRoute r.url = some true →
      Step w (.check payload r)
        { w with
          dispatches := l₁ ++ ⟨payload, m₁ ++ m₂⟩ :: l₂
          tasks := w.tasks ++ [⟨r, payload, 0, .send⟩] }
  | skip {w : World D} {l₁ l₂ : List (Dispatch D)} {m₁ m₂ : List WebhookRegistration}
      {payload : WebhookPayload D} {r : WebhookRegistration} :
      w.dispatches = l₁ ++ ⟨payload, m₁ ++ r :: m₂⟩ :: l₂ →
      w.health.shouldRoute r.url = some false →
      Step w (.check payload r) { w with dispatches := l₁ ++ ⟨payload, m₁ ++ m₂⟩ :: l₂ }
  | checkPanic {w : World D} {l₁ l₂ : List (Dispatch D)} {m₁ m₂ : List WebhookRegistration}
      {payload : WebhookPayload D} {r : WebhookRegistration} :
      w.dispatches = l₁ ++ ⟨payload, m₁ ++ r :: m₂⟩ :: l₂ →
      w.health.shouldRoute r.url = none →
      Step w (.check payload r) { w with dispatches := l₁ ++ l₂ }
  | returned {w : World D} {l₁ l₂ : List (Dispatch D)} {payload : WebhookPayload D} :
      w.dispatches = l₁ ++ ⟨payload, []⟩ :: l₂ →
      Step w (.returned payload) { w with dispatches := l₁ ++ l₂ }
  | send {w : World D} {l₁ l₂ : List (DeliveryTask D)} {t : DeliveryTask D} {success : Bool} :
      w.tasks = l₁ ++ t :: l₂ → t.stage = .send →
      Step w (.send t success)
        { w with
          tasks := l₁ ++ { t with stage := .record success } :: l₂
          accepted := if success then (t.payload, t.registration) :: w.accepted
            else w.accepted }
  | record {w : World D} {l₁ l₂ : List (DeliveryTask D)} {t : DeliveryTask D} {success : Bool}
      {now : Nat} {health : HealthRoutingState} :
      w.tasks = l₁ ++ t :: l₂ → t.stage = .record success →
      w.health.recordOutcome now t.registration.url success = (health, true) →
      Step w (.record t now)
        { w with health := health, tasks := l₁ ++ (t.afterRecord success).toList ++ l₂ }
  | recordPanic {w : World D} {l₁ l₂ : List (DeliveryTask D)} {t : DeliveryTask D}
      {success : Bool} {now : Nat} {health : HealthRoutingState} :
      w.tasks = l₁ ++ t :: l₂ → t.stage = .record success →
      w.health.recordOutcome now t.registration.url success = (health, false) →
      Step w (.record t now) { w with health := health, tasks := l₁ ++ l₂ }
  | deadLetter {w : World D} {l₁ l₂ : List (DeliveryTask D)} {t : DeliveryTask D} {id : String}
      {now : Nat} :
      w.tasks = l₁ ++ t :: l₂ → t.stage = .exhausted → (∀ entry ∈ w.dlq.store, entry.id ≠ id) →
      Step w (.deadLetter t id now)
        { w with
          tasks := l₁ ++ l₂
          dlq := routeToDlq w.dlq id now (dlqSource t.registration) (some t.registration.url)
            t.payload "exhausted all delivery retries" (maxRetries + 1) }
  | replay {w : World D} {id : String} {status : DlqStatus} {now : Nat} :
      status ≠ .pending →
      Step w (.replay id status now) { w with dlq := markStatus w.dlq id status now }

/-! ## What is claimed -/

/-- The registration is active, and its filters let the event pass. -/
def WebhookRegistration.Matches (r : WebhookRegistration) (payload : WebhookPayload D) : Prop :=
  r.active = true ∧ (∀ v, r.vaultId = some v → v = payload.vaultId) ∧
    (r.eventTypes = [] ∨ payload.eventType ∈ r.eventTypes)

/-- The dead letters for an event and a registration. -/
def World.deadLetters (w : World D) (payload : WebhookPayload D) (r : WebhookRegistration) :
    List (DlqEntry D) :=
  w.dlq.store.filter fun entry => entry.payload.id = payload.id ∧ entry.source = dlqSource r

/-- Every event was accepted by the endpoint, or has one dead letter, for every registration
that matched it when it was raised. -/
def Lossless (w : World D) : Prop :=
  ∀ payload registry, (payload, registry) ∈ w.raised → ∀ r ∈ registry, r.Matches payload →
    (payload, r) ∈ w.accepted ∨
      ∃ entry, w.deadLetters payload r = [entry] ∧ entry.payload = payload ∧
        entry.target = some r.url

/-- A delivery to the endpoint may still come. -/
def Receives (w : World D) (url : String) : Prop :=
  ∃ ks w' t success, Run Step w ks w' ∧ .send t success ∈ ks ∧ t.registration.url = url

/-- Every registered endpoint may receive deliveries again. -/
def Recoverable (w : World D) : Prop := ∀ r ∈ w.registrations, Receives w r.url

/-- The step does not find an endpoint with five failures in a row, a full count of its requests,
nor the queue behind the lock that a full count of attempts has poisoned. -/
def Fine (w : World D) : Label D → Prop
  | .check _ r => w.health.Healthy r.url
  | .record t _ => w.health.Countable t.registration.url
  | .deadLetter _ _ _ => w.dlq.poisoned = false
  | _ => True

theorem wants_iff {r : WebhookRegistration} {payload : WebhookPayload D} :
    r.wants payload.eventType payload.vaultId = true ↔ r.Matches payload := by
  unfold WebhookRegistration.wants WebhookRegistration.Matches
  cases r.active with
  | false => simp
  | true =>
      cases r.vaultId <;> cases r.eventTypes <;> simp

/-! ## Where deliveries are -/

/-- The name of a delivery. -/
def key (payload : WebhookPayload D) (r : WebhookRegistration) : String × String :=
  (payload.id, dlqSource r)

def Dispatch.keys (d : Dispatch D) : Multiset (String × String) := d.remaining.map (key d.payload)

/-- A task is done with its delivery when the endpoint has accepted it. -/
def DeliveryTask.keys (t : DeliveryTask D) : Multiset (String × String) :=
  if t.stage = .record true then 0 else {key t.payload t.registration}

/-- The deliveries that events have asked for, and where they are. -/
def World.tally (w : World D) : Tally (String × String) where
  handed := w.raised.flatMap fun q =>
    (q.2.filter fun r => r.wants q.1.eventType q.1.vaultId).map (key q.1)
  present := (w.dispatches.map Dispatch.keys).sum + (w.tasks.map DeliveryTask.keys).sum +
    (w.accepted.map fun a => key a.1 a.2 : List (String × String)) +
    (w.dlq.store.map fun entry => (entry.payload.id, entry.source) : List (String × String))

section Places

variable {w : World D} {l₁ l₂ : List (Dispatch D)} {m₁ m₂ : List WebhookRegistration}
  {payload : WebhookPayload D} {r : WebhookRegistration} {t₁ t₂ : List (DeliveryTask D)}
  {t t' : DeliveryTask D} {success : Bool}

theorem dlqSource_injective {r r' : WebhookRegistration} (h : dlqSource r = dlqSource r') :
    r.id = r'.id := by
  have hlist := congrArg String.toList h
  unfold dlqSource at hlist
  rw [String.toList_append, String.toList_append] at hlist
  exact String.toList_injective (List.append_cancel_left hlist)

/-- A registration that a call has come to. -/
theorem keys_remaining : Dispatch.keys ⟨payload, m₁ ++ r :: m₂⟩ =
    {key payload r} + Dispatch.keys ⟨payload, m₁ ++ m₂⟩ := by
  unfold Dispatch.keys
  simp only [List.map_append, List.map_cons, ← Multiset.coe_add, ← Multiset.cons_coe,
    ← Multiset.singleton_add]
  abel

theorem keys_of_ne (h : t.stage ≠ .record true) : t.keys = {key t.payload t.registration} :=
  if_neg h

theorem tally_route (h : w.dispatches = l₁ ++ ⟨payload, m₁ ++ r :: m₂⟩ :: l₂) :
    World.tally { w with
      dispatches := l₁ ++ ⟨payload, m₁ ++ m₂⟩ :: l₂
      tasks := w.tasks ++ [⟨r, payload, 0, .send⟩] } = w.tally := by
  have hkeys : DeliveryTask.keys ⟨r, payload, 0, .send⟩ = {key payload r} := keys_of_ne nofun
  unfold World.tally
  simp only [h, List.map_append, List.map_cons, List.map_nil, List.sum_append, List.sum_cons,
    List.sum_nil, keys_remaining, hkeys, Tally.mk.injEq, true_and]
  abel

theorem lost_skip (h : w.dispatches = l₁ ++ ⟨payload, m₁ ++ r :: m₂⟩ :: l₂) :
    w.tally.Lost (World.tally { w with dispatches := l₁ ++ ⟨payload, m₁ ++ m₂⟩ :: l₂ }) := by
  refine ⟨rfl, {key payload r}, Multiset.singleton_ne_zero _, ?_⟩
  unfold World.tally
  simp only [h, List.map_append, List.map_cons, List.sum_append, List.sum_cons, keys_remaining]
  abel

theorem lost_checkPanic (h : w.dispatches = l₁ ++ ⟨payload, m₁ ++ r :: m₂⟩ :: l₂) :
    w.tally.Lost (World.tally { w with dispatches := l₁ ++ l₂ }) := by
  refine ⟨rfl, {key payload r} + Dispatch.keys ⟨payload, m₁ ++ m₂⟩, ?_, ?_⟩
  · rw [Multiset.singleton_add]
    exact Multiset.cons_ne_zero
  · unfold World.tally
    simp only [h, List.map_append, List.map_cons, List.sum_append, List.sum_cons, keys_remaining]
    abel

theorem tally_returned (h : w.dispatches = l₁ ++ ⟨payload, []⟩ :: l₂) :
    World.tally { w with dispatches := l₁ ++ l₂ } = w.tally := by
  have hkeys : Dispatch.keys ⟨payload, []⟩ = 0 := rfl
  unfold World.tally
  simp only [h, List.map_append, List.map_cons, List.sum_append, List.sum_cons, hkeys, zero_add]

/-- A delivery that is accepted leaves its task. -/
theorem tally_send (h : w.tasks = t₁ ++ t :: t₂) (hstage : t.stage = .send) :
    World.tally { w with
      tasks := t₁ ++ { t with stage := .record success } :: t₂
      accepted := if success then (t.payload, t.registration) :: w.accepted
        else w.accepted } = w.tally := by
  have hkeys : t.keys = {key t.payload t.registration} := keys_of_ne (by rw [hstage]; nofun)
  unfold World.tally
  cases success with
  | true =>
      have hdone : DeliveryTask.keys { t with stage := .record true } = 0 := if_pos rfl
      simp only [h, List.map_append, List.map_cons, List.sum_append, List.sum_cons, hkeys, hdone,
        if_true, ← Multiset.cons_coe, ← Multiset.singleton_add, Tally.mk.injEq, true_and]
      abel
  | false =>
      have hopen : DeliveryTask.keys { t with stage := .record false } =
          {key t.payload t.registration} := keys_of_ne nofun
      simp only [h, List.map_append, List.map_cons, List.sum_append, List.sum_cons, hkeys, hopen,
        Bool.false_eq_true, if_false]

theorem tally_record {health : HealthRoutingState} (h : w.tasks = t₁ ++ t :: t₂)
    (hstage : t.stage = .record success) :
    World.tally { w with
      health := health
      tasks := t₁ ++ (t.afterRecord success).toList ++ t₂ } = w.tally := by
  have hkeys : ((t.afterRecord success).toList.map DeliveryTask.keys).sum = t.keys := by
    unfold DeliveryTask.afterRecord DeliveryTask.keys
    cases success with
    | true => simp [hstage]
    | false =>
        rw [if_neg (by simp)]
        split <;> simp [hstage]
  unfold World.tally
  simp only [h, List.map_append, List.map_cons, List.sum_append, List.sum_cons, hkeys]
  rw [add_assoc (List.sum _) t.keys]

/-- A task that panics is lost with its delivery, unless the delivery was accepted. -/
theorem tally_recordPanic {health : HealthRoutingState} (h : w.tasks = t₁ ++ t :: t₂)
    (hstage : t.stage = .record success) :
    w.tally.Kept (World.tally { w with health := health, tasks := t₁ ++ t₂ }) ∨
      w.tally.Lost (World.tally { w with health := health, tasks := t₁ ++ t₂ }) := by
  cases success with
  | true =>
      have hkeys : t.keys = 0 := if_pos hstage
      have heq : World.tally { w with health := health, tasks := t₁ ++ t₂ } = w.tally := by
        unfold World.tally
        simp only [h, List.map_append, List.map_cons, List.sum_append, List.sum_cons, hkeys,
          zero_add]
      rw [heq]
      exact .inl .pass
  | false =>
      have hkeys : t.keys = {key t.payload t.registration} := keys_of_ne (by rw [hstage]; nofun)
      refine .inr ⟨rfl, _, Multiset.singleton_ne_zero (key t.payload t.registration), ?_⟩
      unfold World.tally
      simp only [h, List.map_append, List.map_cons, List.sum_append, List.sum_cons, hkeys]
      abel

theorem tally_deadLetter {id : String} {now : Nat} (h : w.tasks = t₁ ++ t :: t₂)
    (hstage : t.stage = .exhausted) (hclear : w.dlq.poisoned = false) :
    World.tally { w with
      tasks := t₁ ++ t₂
      dlq := routeToDlq w.dlq id now (dlqSource t.registration) (some t.registration.url)
        t.payload "exhausted all delivery retries" (maxRetries + 1) } = w.tally := by
  have hkeys : t.keys = {key t.payload t.registration} := keys_of_ne (by rw [hstage]; nofun)
  unfold World.tally routeToDlq
  simp only [h, hclear, Bool.false_eq_true, if_false, List.map_append, List.map_cons, List.map_nil,
    List.sum_append, List.sum_cons, hkeys, ← Multiset.coe_add, Multiset.coe_singleton,
    Tally.mk.injEq, true_and]
  have hentry : (t.payload.id, dlqSource t.registration) = key t.payload t.registration := rfl
  rw [hentry]
  abel

/-- Behind a poisoned lock the delivery is lost with its task. -/
theorem lost_deadLetter {id : String} {now : Nat} (h : w.tasks = t₁ ++ t :: t₂)
    (hstage : t.stage = .exhausted) (hpoisoned : w.dlq.poisoned = true) :
    w.tally.Lost (World.tally { w with
      tasks := t₁ ++ t₂
      dlq := routeToDlq w.dlq id now (dlqSource t.registration) (some t.registration.url)
        t.payload "exhausted all delivery retries" (maxRetries + 1) }) := by
  have hkeys : t.keys = {key t.payload t.registration} := keys_of_ne (by rw [hstage]; nofun)
  refine ⟨rfl, _, Multiset.singleton_ne_zero (key t.payload t.registration), ?_⟩
  unfold World.tally routeToDlq
  simp only [h, hpoisoned, if_true, List.map_append, List.map_cons, List.sum_append, List.sum_cons,
    hkeys]
  abel

/-- A replay leaves what an entry is about. -/
theorem map_markStatus {id : String} {status : DlqStatus} {now : Nat} {α : Type}
    (s : DlqState D) (f : DlqEntry D → α)
    (hf : ∀ entry attempts,
      f { entry with status := status, lastAttemptAt := now, attempts := attempts } = f entry) :
    (markStatus s id status now).store.map f = s.store.map f := by
  unfold markStatus
  split
  · rfl
  · rw [List.map_map]
    refine List.map_congr_left fun entry _ => ?_
    show f (if _ then _ else _) = f entry
    split
    · exact hf entry _
    · rfl

theorem tally_replay {id : String} {status : DlqStatus} {now : Nat} :
    World.tally { w with dlq := markStatus w.dlq id status now } = w.tally := by
  unfold World.tally
  rw [map_markStatus w.dlq (fun entry => (entry.payload.id, entry.source)) fun _ _ => rfl]

end Places

/-! ## The invariant -/

/-- The event was raised while there was this registration. -/
def World.Origin (w : World D) (payload : WebhookPayload D) (r : WebhookRegistration) : Prop :=
  ∃ registry, (payload, registry) ∈ w.raised ∧ r ∈ registry

structure Inv (w : World D) : Prop where
  health : w.health.Sound
  sound : w.tally.Sound
  ids : (w.registrations.map (·.id)).Nodup
  urls : ∀ r ∈ w.registrations, r.url ≠ ""
  raisedIds : (w.raised.map (·.1.id)).Nodup
  registries : ∀ q ∈ w.raised, (q.2.map (·.id)).Nodup ∧ (q.2 ≠ [] → w.registrations ≠ [])
  dispatches : ∀ d ∈ w.dispatches, ∀ r ∈ d.remaining, w.Origin d.payload r
  tasks : ∀ t ∈ w.tasks, w.Origin t.payload t.registration
  accepted : ∀ a ∈ w.accepted, w.Origin a.1 a.2
  dlq : ∀ entry ∈ w.dlq.store, ∃ r, w.Origin entry.payload r ∧ entry.source = dlqSource r ∧
    entry.target = some r.url
  panicked : w.health.poisoned = true → w.registrations ≠ []

/-- What a step does to the deliveries and the lock. -/
inductive Effect (w : World D) (k : Label D) (w' : World D) : Prop
  | kept : w.tally.Kept w'.tally → Fine w k → w'.health.poisoned = w.health.poisoned →
      Effect w k w'
  | spoiled : w.tally.Kept w'.tally ∨ w.tally.Lost w'.tally →
      w.tally.Lost w'.tally ∨ w'.health.poisoned = true →
      (w.health.poisoned = true → w'.health.poisoned = true) →
      (Fine w k → w.health.poisoned = true) → Effect w k w'

section Steps

variable {w w' : World D} {k : Label D} {payload : WebhookPayload D}

/-- The deliveries of a new event are new. -/
theorem kept_raise (hinv : Inv w) (hfresh : ∀ q ∈ w.raised, q.1.id ≠ payload.id) :
    w.tally.Kept (World.tally { w with
      dispatches := w.dispatches ++ [⟨payload,
        w.registrations.filter (·.wants payload.eventType payload.vaultId)⟩]
      raised := (payload, w.registrations) :: w.raised }) := by
  let wanting := w.registrations.filter (·.wants payload.eventType payload.vaultId)
  have hids : (wanting.map (·.id)).Nodup := hinv.ids.sublist (List.filter_sublist.map _)
  have hnew : (wanting.map (key payload)).Nodup :=
    (hids.of_map _).map_on fun r hr r' hr' heq =>
      List.inj_on_of_nodup_map hids hr hr' (dlqSource_injective (congrArg Prod.snd heq))
  have htally : World.tally { w with
      dispatches := w.dispatches ++ [⟨payload, wanting⟩]
      raised := (payload, w.registrations) :: w.raised } =
      ⟨wanting.map (key payload) ++ w.tally.handed,
        (wanting.map (key payload) : Multiset (String × String)) + w.tally.present⟩ := by
    have hkeys : Dispatch.keys ⟨payload, wanting⟩ = wanting.map (key payload) := rfl
    unfold World.tally
    simp only [List.map_append, List.map_cons, List.map_nil, List.sum_append, List.sum_cons,
      List.sum_nil, List.flatMap_cons, hkeys, Tally.mk.injEq]
    exact ⟨rfl, by abel⟩
  rw [htally]
  refine .handIn hnew fun x hx hhanded => ?_
  obtain ⟨r, -, rfl⟩ := List.mem_map.mp hx
  obtain ⟨q, hq, hmem⟩ := List.mem_flatMap.mp hhanded
  obtain ⟨r', -, heq⟩ := List.mem_map.mp hmem
  exact hfresh q hq (congrArg Prod.fst heq)

theorem effect_of_step (hinv : Inv w) (h : Step w k w') : Effect w k w' := by
  cases h with
  | register => exact .kept .pass trivial rfl
  | delete => exact .kept .pass trivial rfl
  | raise hfresh => exact .kept (kept_raise hinv hfresh) trivial rfl
  | route hdispatch hroute =>
      obtain ⟨-, hhealthy⟩ :=
        (HealthRoutingState.shouldRoute_eq_some_true_iff hinv.health).mp hroute
      refine .kept ?_ hhealthy rfl
      rw [tally_route hdispatch]
      exact .pass
  | skip hdispatch hroute =>
      have hlost := lost_skip hdispatch
      refine .spoiled (.inr hlost) (.inl hlost) id fun hfine => ?_
      by_contra hpoisoned
      have hrouted := (HealthRoutingState.shouldRoute_eq_some_true_iff hinv.health).mpr
        ⟨Bool.eq_false_iff.mpr hpoisoned, hfine⟩
      rw [hroute] at hrouted
      cases hrouted
  | checkPanic hdispatch hroute =>
      have hlost := lost_checkPanic hdispatch
      exact .spoiled (.inr hlost) (.inl hlost) id fun _ =>
        HealthRoutingState.shouldRoute_eq_none_iff.mp hroute
  | returned hdispatch =>
      refine .kept ?_ trivial rfl
      rw [tally_returned hdispatch]
      exact .pass
  | send htasks hstage =>
      refine .kept ?_ trivial rfl
      rw [tally_send htasks hstage]
      exact .pass
  | record htasks hstage hrecord =>
      have hreturns := congrArg Prod.snd hrecord
      refine .kept ?_ (HealthRoutingState.recordOutcome_returns_iff.mp hreturns).2 ?_
      · rw [tally_record htasks hstage]
        exact .pass
      · have hsame := HealthRoutingState.poisoned_recordOutcome hreturns
        rwa [hrecord] at hsame
  | recordPanic htasks hstage hrecord =>
      have hpanics := congrArg Prod.snd hrecord
      have hpoisoned := HealthRoutingState.poisoned_of_recordOutcome hpanics
      rw [hrecord] at hpoisoned
      refine .spoiled (tally_recordPanic htasks hstage) (.inr hpoisoned) (fun _ => hpoisoned)
        fun hfine => ?_
      by_contra hclear
      rw [HealthRoutingState.recordOutcome_returns_iff.mpr
        ⟨Bool.eq_false_iff.mpr hclear, hfine⟩] at hpanics
      cases hpanics
  | @deadLetter l₁ l₂ t id now htasks hstage =>
      cases hpoisoned : w.dlq.poisoned with
      | false =>
          refine .kept ?_ hpoisoned rfl
          rw [tally_deadLetter htasks hstage hpoisoned]
          exact .pass
      | true =>
          have hlost := @lost_deadLetter _ w l₁ l₂ t id now htasks hstage hpoisoned
          refine .spoiled (.inr hlost) (.inl hlost) (fun h => h) fun hfine => ?_
          exact absurd (hfine.symm.trans hpoisoned) Bool.false_ne_true
  | replay =>
      refine .kept ?_ trivial rfl
      rw [tally_replay]
      exact .pass

theorem Effect.sound (h : Effect w k w') (hs : w.tally.Sound) : w'.tally.Sound := by
  cases h with
  | kept hkept => exact hkept.sound hs
  | spoiled htally => exact htally.elim (·.sound hs) (·.sound hs)

theorem registered_of_origin (hinv : Inv w) {r : WebhookRegistration} (h : w.Origin payload r) :
    w.registrations ≠ [] := by
  obtain ⟨registry, hraised, hr⟩ := h
  exact (hinv.registries _ hraised).2 (List.ne_nil_of_mem hr)

theorem registerWebhook_mem {store : List WebhookRegistration} {body : RegisterWebhookRequest}
    {id : String} {now : Nat} {r : WebhookRegistration}
    (h : r ∈ (registerWebhook store body id now).2) : r ∈ store ∨ r.id = id ∧ r.url ≠ "" := by
  unfold registerWebhook at h
  split at h
  · exact .inl h
  · next hurl =>
      rcases List.mem_append.mp h with h | h
      · exact .inl h
      · obtain rfl := List.mem_singleton.mp h
        exact .inr ⟨rfl, hurl⟩

theorem nodup_registerWebhook {store : List WebhookRegistration} {id : String}
    (body : RegisterWebhookRequest) (now : Nat) (hids : (store.map (·.id)).Nodup)
    (hfresh : ∀ r ∈ store, r.id ≠ id) :
    ((registerWebhook store body id now).2.map (·.id)).Nodup ∧
      (store ≠ [] → (registerWebhook store body id now).2 ≠ []) := by
  unfold registerWebhook
  split
  · exact ⟨hids, fun h => h⟩
  · refine ⟨?_, fun _ => List.append_ne_nil_of_right_ne_nil _ (List.cons_ne_nil _ _)⟩
    rw [List.map_append]
    refine hids.append (List.nodup_singleton _) fun i hold hnew => ?_
    obtain ⟨r, hr, rfl⟩ := List.mem_map.mp hold
    exact hfresh r hr (List.mem_singleton.mp hnew)

/-- Identifiers and URLs stay when a registration is deactivated. -/
theorem deleteWebhook_map {store : List WebhookRegistration} {id : String} {α : Type}
    (f : WebhookRegistration → α)
    (hf : ∀ wh : WebhookRegistration, f { wh with active := false } = f wh) :
    (deleteWebhook store id).2.map f = store.map f := by
  unfold deleteWebhook
  rw [List.map_map]
  refine List.map_congr_left fun wh _ => ?_
  show f (if _ then _ else _) = f wh
  split
  · exact hf wh
  · rfl

/-- Dispatches that have no registrations but those of earlier ones. -/
theorem origin_dispatches {ds : List (Dispatch D)} (hinv : Inv w)
    (h : ∀ d ∈ ds, ∃ d' ∈ w.dispatches, d'.payload = d.payload ∧ d.remaining ⊆ d'.remaining) :
    ∀ d ∈ ds, ∀ r ∈ d.remaining, w.Origin d.payload r := by
  intro d hd r hr
  obtain ⟨d', hd', hpayload, hsub⟩ := h d hd
  exact hpayload ▸ hinv.dispatches d' hd' r (hsub hr)

theorem remaining_subset {r : WebhookRegistration} {m₁ m₂ : List WebhookRegistration} :
    m₁ ++ m₂ ⊆ m₁ ++ r :: m₂ := fun _ hr => mem_rest rfl hr

/-- The dispatch is through with one registration. -/
theorem origin_checked {l₁ l₂ : List (Dispatch D)} {m₁ m₂ : List WebhookRegistration}
    {r : WebhookRegistration} (hinv : Inv w)
    (h : w.dispatches = l₁ ++ ⟨payload, m₁ ++ r :: m₂⟩ :: l₂) :
    ∀ d ∈ l₁ ++ ⟨payload, m₁ ++ m₂⟩ :: l₂, ∀ r ∈ d.remaining, w.Origin d.payload r := by
  refine origin_dispatches hinv fun d hd => ?_
  rcases mem_replaced h hd with hd | rfl
  · exact ⟨d, hd, rfl, List.Subset.refl _⟩
  · exact ⟨_, mem_middle h, rfl, remaining_subset⟩

theorem origin_dispatches_rest {l₁ l₂ : List (Dispatch D)} {d₀ : Dispatch D} (hinv : Inv w)
    (h : w.dispatches = l₁ ++ d₀ :: l₂) :
    ∀ d ∈ l₁ ++ l₂, ∀ r ∈ d.remaining, w.Origin d.payload r :=
  origin_dispatches hinv fun d hd => ⟨d, mem_rest h hd, rfl, List.Subset.refl _⟩

theorem afterRecord_mem {t t' : DeliveryTask D} {success : Bool}
    (h : t' ∈ (t.afterRecord success).toList) :
    t.payload = t'.payload ∧ t.registration = t'.registration := by
  unfold DeliveryTask.afterRecord at h
  split at h
  · cases h
  · split at h <;>
    · obtain rfl := List.mem_singleton.mp h
      exact ⟨rfl, rfl⟩

theorem inv_start : Inv (World.start : World D) :=
  ⟨HealthRoutingState.sound_new,
    ⟨Multiset.nodup_zero, fun _ h => absurd h (Multiset.notMem_zero _)⟩, List.nodup_nil,
    by simp [World.start], List.nodup_nil, by simp [World.start],
    by simp [World.start], by simp [World.start], by simp [World.start],
    by simp [World.start, DlqState.new], by simp [World.start, HealthRoutingState.new]⟩

theorem inv_register {body : RegisterWebhookRequest} {id : String} {now : Nat} (hinv : Inv w)
    (hfresh : ∀ r ∈ w.registrations, r.id ≠ id) :
    Inv { w with registrations := (registerWebhook w.registrations body id now).2 } := by
  obtain ⟨hids, hne⟩ := nodup_registerWebhook body now hinv.ids hfresh
  exact { hinv with
    ids := hids
    urls := fun r hr => (registerWebhook_mem hr).elim (hinv.urls r) (·.2)
    registries := fun q hq => (hinv.registries q hq).imp_right fun h hq' => hne (h hq')
    panicked := fun hp => hne (hinv.panicked hp) }

theorem inv_delete {id : String} (hinv : Inv w) :
    Inv { w with registrations := (deleteWebhook w.registrations id).2 } := by
  have hne : w.registrations ≠ [] → (deleteWebhook w.registrations id).2 ≠ [] :=
    fun hne hnil => hne (List.map_eq_nil_iff.mp hnil)
  refine { hinv with
    ids := ?_
    urls := fun r hr => ?_
    registries := fun q hq => (hinv.registries q hq).imp_right fun h hq' => hne (h hq')
    panicked := fun hp => hne (hinv.panicked hp) }
  · exact (deleteWebhook_map (·.id) fun _ => rfl).symm ▸ hinv.ids
  · have hurl : r.url ∈ (deleteWebhook w.registrations id).2.map (·.url) :=
      List.mem_map_of_mem hr
    rw [deleteWebhook_map (·.url) fun _ => rfl] at hurl
    obtain ⟨r', hr', heq⟩ := List.mem_map.mp hurl
    exact heq ▸ hinv.urls r' hr'

theorem inv_raise (hinv : Inv w) (hfresh : ∀ q ∈ w.raised, q.1.id ≠ payload.id) :
    Inv { w with
      dispatches := w.dispatches ++ [⟨payload,
        w.registrations.filter (·.wants payload.eventType payload.vaultId)⟩]
      raised := (payload, w.registrations) :: w.raised } := by
  have horigin : ∀ {p r}, w.Origin p r → World.Origin { w with
      dispatches := w.dispatches ++ [⟨payload,
        w.registrations.filter (·.wants payload.eventType payload.vaultId)⟩]
      raised := (payload, w.registrations) :: w.raised } p r :=
    fun ⟨registry, hraised, hr⟩ => ⟨registry, List.mem_cons_of_mem _ hraised, hr⟩
  refine { hinv with
    sound := (kept_raise hinv hfresh).sound hinv.sound
    raisedIds := List.nodup_cons.mpr ⟨fun hmem => ?_, hinv.raisedIds⟩
    registries := fun q hq => ?_
    dispatches := fun d hd r hr => ?_
    tasks := fun t ht => horigin (hinv.tasks t ht)
    accepted := fun a ha => horigin (hinv.accepted a ha)
    dlq := fun entry hentry => ?_ }
  · obtain ⟨q, hq, heq⟩ := List.mem_map.mp hmem
    exact hfresh q hq heq
  · rcases List.mem_cons.mp hq with rfl | hq
    · exact ⟨hinv.ids, id⟩
    · exact hinv.registries q hq
  · rcases List.mem_append.mp hd with hd | hd
    · exact horigin (hinv.dispatches d hd r hr)
    · obtain rfl := List.mem_singleton.mp hd
      exact ⟨w.registrations, List.mem_cons_self, (List.mem_filter.mp hr).1⟩
  · obtain ⟨r, hr, hsource, htarget⟩ := hinv.dlq entry hentry
    exact ⟨r, horigin hr, hsource, htarget⟩

theorem inv_send {l₁ l₂ : List (DeliveryTask D)} {t : DeliveryTask D} {success : Bool}
    (hinv : Inv w) (htasks : w.tasks = l₁ ++ t :: l₂) (hstage : t.stage = .send) :
    Inv { w with
      tasks := l₁ ++ { t with stage := .record success } :: l₂
      accepted := if success then (t.payload, t.registration) :: w.accepted else w.accepted } := by
  have horigin := hinv.tasks t (mem_middle htasks)
  refine { hinv with
    sound := (tally_send htasks hstage).symm ▸ hinv.sound
    tasks := fun t' ht' => ?_
    accepted := fun a ha => ?_ }
  · rcases mem_replaced htasks ht' with ht' | rfl
    · exact hinv.tasks t' ht'
    · exact horigin
  · cases success with
    | false => exact hinv.accepted a ha
    | true =>
        rcases List.mem_cons.mp ha with rfl | ha
        · exact horigin
        · exact hinv.accepted a ha

/-- An outcome has been recorded, or not, and the task goes on or is over. -/
theorem inv_recorded {l₁ l₂ m : List (DeliveryTask D)} {t : DeliveryTask D} {success returns : Bool}
    {now : Nat} {health : HealthRoutingState} (hinv : Inv w) (htasks : w.tasks = l₁ ++ t :: l₂)
    (hrecord : w.health.recordOutcome now t.registration.url success = (health, returns))
    (hsound : (World.tally { w with health := health, tasks := l₁ ++ m ++ l₂ }).Sound)
    (hnext : ∀ t' ∈ m, t.payload = t'.payload ∧ t.registration = t'.registration) :
    Inv { w with health := health, tasks := l₁ ++ m ++ l₂ } := by
  have horigin := hinv.tasks t (mem_middle htasks)
  have hregistered := registered_of_origin hinv horigin
  have hhealth : (w.health.recordOutcome now t.registration.url success).1.Sound :=
    hinv.health.recordOutcome
  rw [hrecord] at hhealth
  refine { hinv with
    health := hhealth
    sound := hsound
    tasks := fun t' ht' => ?_
    panicked := fun _ => hregistered }
  rcases List.mem_append.mp ht' with ht' | ht'
  · rcases List.mem_append.mp ht' with ht' | ht'
    · exact hinv.tasks t' (mem_rest htasks (List.mem_append_left _ ht'))
    · obtain ⟨hpayload, hregistration⟩ := hnext t' ht'
      rw [← hpayload, ← hregistration]
      exact horigin
  · exact hinv.tasks t' (mem_rest htasks (List.mem_append_right _ ht'))

theorem inv_deadLetter {l₁ l₂ : List (DeliveryTask D)} {t : DeliveryTask D} {id error : String}
    {now attempts : Nat} (hinv : Inv w) (htasks : w.tasks = l₁ ++ t :: l₂)
    (hsound : (World.tally { w with
      tasks := l₁ ++ l₂
      dlq := routeToDlq w.dlq id now (dlqSource t.registration) (some t.registration.url)
        t.payload error attempts }).Sound) :
    Inv { w with
      tasks := l₁ ++ l₂
      dlq := routeToDlq w.dlq id now (dlqSource t.registration) (some t.registration.url)
        t.payload error attempts } := by
  refine { hinv with
    sound := hsound
    tasks := fun t' ht' => hinv.tasks t' (mem_rest htasks ht')
    dlq := fun entry hentry => ?_ }
  unfold routeToDlq at hentry
  split at hentry
  · exact hinv.dlq entry hentry
  · rcases List.mem_append.mp hentry with hentry | hentry
    · exact hinv.dlq entry hentry
    · obtain rfl := List.mem_singleton.mp hentry
      exact ⟨t.registration, hinv.tasks t (mem_middle htasks), rfl, rfl⟩

theorem inv_replay {id : String} {status : DlqStatus} {now : Nat} (hinv : Inv w) :
    Inv { w with dlq := markStatus w.dlq id status now } := by
  refine { hinv with sound := tally_replay.symm ▸ hinv.sound, dlq := fun entry hentry => ?_ }
  have hmem : (entry.payload, entry.source, entry.target) ∈
      (markStatus w.dlq id status now).store.map fun e => (e.payload, e.source, e.target) :=
    List.mem_map_of_mem hentry
  rw [map_markStatus w.dlq (fun e => (e.payload, e.source, e.target)) fun _ _ => rfl] at hmem
  obtain ⟨old, hold, heq⟩ := List.mem_map.mp hmem
  obtain ⟨hpayload, heq⟩ := Prod.mk.inj heq
  obtain ⟨hsource, htarget⟩ := Prod.mk.inj heq
  rw [← hpayload, ← hsource, ← htarget]
  exact hinv.dlq old hold

theorem inv_step (hinv : Inv w) (h : Step w k w') : Inv w' := by
  have hsound := (effect_of_step hinv h).sound hinv.sound
  cases h with
  | register hfresh => exact inv_register hinv hfresh
  | delete => exact inv_delete hinv
  | raise hfresh => exact inv_raise hinv hfresh
  | route hdispatch hroute =>
      have hdispatches := origin_checked hinv hdispatch
      have horigin := hinv.dispatches _ (mem_middle hdispatch) _ (mem_middle rfl)
      refine { hinv with sound := hsound, dispatches := hdispatches, tasks := fun t ht => ?_ }
      rcases List.mem_append.mp ht with ht | ht
      · exact hinv.tasks t ht
      · obtain rfl := List.mem_singleton.mp ht
        exact horigin
  | skip hdispatch hroute =>
      have hdispatches := origin_checked hinv hdispatch
      exact { hinv with sound := hsound, dispatches := hdispatches }
  | checkPanic hdispatch hroute =>
      have hdispatches := origin_dispatches_rest hinv hdispatch
      exact { hinv with sound := hsound, dispatches := hdispatches }
  | returned hdispatch =>
      have hdispatches := origin_dispatches_rest hinv hdispatch
      exact { hinv with sound := hsound, dispatches := hdispatches }
  | send htasks hstage => exact inv_send hinv htasks hstage
  | record htasks hstage hrecord =>
      exact inv_recorded hinv htasks hrecord hsound fun _ => afterRecord_mem
  | @recordPanic l₁ _ _ _ _ _ htasks hstage hrecord =>
      rw [← List.append_nil l₁] at hsound ⊢
      exact inv_recorded hinv htasks hrecord hsound nofun
  | deadLetter htasks hstage => exact inv_deadLetter hinv htasks hsound
  | replay => exact inv_replay hinv

theorem inv_of_run {ks : List (Label D)} (h : Run Step .start ks w) : Inv w :=
  h.invariant inv_start fun _ _ _ hinv hstep => inv_step hinv hstep

end Steps

/-! ## What is lost -/

/-- A delivery is missing, or the lock is poisoned. -/
def Spoiled (w : World D) : Prop := w.tally.Missing ∨ w.health.poisoned = true

section Losses

variable {w w' : World D} {k : Label D} {ks : List (Label D)} {payload payload' : WebhookPayload D}
  {r r' : WebhookRegistration}

/-- Steps spoil a world by not being fine, and it stays spoiled. -/
theorem spoiled_step (hinv : Inv w) (h : Step w k w') : Spoiled w' ↔ Spoiled w ∨ ¬ Fine w k := by
  cases effect_of_step hinv h with
  | kept hkept hfine hpoisoned =>
      have hmissing : w'.tally.Missing ↔ w.tally.Missing :=
        ⟨fun h' => by_contra fun hw => hkept.not_missing hw h', hkept.missing⟩
      unfold Spoiled
      rw [hmissing, hpoisoned]
      simp [hfine]
  | spoiled htally hspoiled hstays hfine =>
      refine iff_of_true (hspoiled.imp (·.missing hinv.sound) id) ?_
      by_cases hf : Fine w k
      · exact .inl (.inr (hfine hf))
      · exact .inr hf

theorem not_spoiled_start : ¬ Spoiled (World.start : World D) := by
  rintro (⟨x, hx, -⟩ | hpoisoned)
  · cases hx
  · cases hpoisoned

theorem not_spoiled_of_run (h : Run (Guarded Step Fine) .start ks w) : ¬ Spoiled w := by
  have hboth : Inv w ∧ ¬ Spoiled w := by
    refine h.invariant (I := fun w => Inv w ∧ ¬ Spoiled w) ⟨inv_start, not_spoiled_start⟩ ?_
    rintro w k w' ⟨hinv, hspoiled⟩ ⟨hstep, hfine⟩
    refine ⟨inv_step hinv hstep, ?_⟩
    rw [spoiled_step hinv hstep]
    exact not_or.mpr ⟨hspoiled, not_not.mpr hfine⟩
  exact hboth.2

theorem fine_of_not_spoiled (h : Run Step .start ks w) (hspoiled : ¬ Spoiled w) :
    Run (Guarded Step Fine) .start ks w := by
  induction h with
  | start => exact .start
  | next hrun hk ih =>
      rw [spoiled_step (inv_of_run hrun) hk, not_or, not_not] at hspoiled
      exact .next (ih hspoiled.1) ⟨hk, hspoiled.2⟩

theorem payload_of_id (hinv : Inv w) {registry registry' : List WebhookRegistration}
    (h : (payload, registry) ∈ w.raised) (h' : (payload', registry') ∈ w.raised)
    (hid : payload.id = payload'.id) : payload = payload' ∧ registry = registry' :=
  Prod.mk.inj (List.inj_on_of_nodup_map hinv.raisedIds h h' hid)

/-- A name stands for one delivery. -/
theorem origin_of_key (hinv : Inv w) (h : w.Origin payload r) (h' : w.Origin payload' r')
    (hkey : key payload r = key payload' r') : payload = payload' ∧ r = r' := by
  obtain ⟨registry, hraised, hr⟩ := h
  obtain ⟨registry', hraised', hr'⟩ := h'
  obtain ⟨rfl, rfl⟩ := payload_of_id hinv hraised hraised' (congrArg Prod.fst hkey)
  exact ⟨rfl, List.inj_on_of_nodup_map (hinv.registries _ hraised).1 hr hr'
    (dlqSource_injective (congrArg Prod.snd hkey))⟩

theorem mem_handed {x : String × String} : x ∈ w.tally.handed ↔
    ∃ payload registry, (payload, registry) ∈ w.raised ∧
      ∃ r ∈ registry, r.Matches payload ∧ x = key payload r := by
  constructor
  · intro hx
    obtain ⟨⟨payload, registry⟩, hq, hmem⟩ := List.mem_flatMap.mp hx
    obtain ⟨r, hr, rfl⟩ := List.mem_map.mp hmem
    obtain ⟨hr, hwants⟩ := List.mem_filter.mp hr
    exact ⟨payload, registry, hq, r, hr, wants_iff.mp hwants, rfl⟩
  · rintro ⟨payload, registry, hq, r, hr, hmatches, rfl⟩
    exact List.mem_flatMap.mpr ⟨_, hq, List.mem_map_of_mem
      (List.mem_filter.mpr ⟨hr, wants_iff.mpr hmatches⟩)⟩

/-- When everything has finished, deliveries are accepted or in the dead-letter queue. -/
theorem mem_present (hdispatches : w.dispatches = []) (htasks : w.tasks = [])
    {x : String × String} : x ∈ w.tally.present ↔ (∃ a ∈ w.accepted, key a.1 a.2 = x) ∨
      ∃ entry ∈ w.dlq.store, (entry.payload.id, entry.source) = x := by
  unfold World.tally
  simp [hdispatches, htasks]

/-- The entries for a name are one at most. -/
theorem filter_eq_singleton {α κ : Type} [DecidableEq κ] {f : α → κ} {l : List α} {a : α}
    (hnodup : (l.map f).Nodup) (ha : a ∈ l) : l.filter (fun b => f b = f a) = [a] := by
  induction l with
  | nil => cases ha
  | cons b l ih =>
      rw [List.map_cons, List.nodup_cons] at hnodup
      rcases List.mem_cons.mp ha with rfl | ha
      · rw [List.filter_cons_of_pos (by simp), List.filter_eq_nil_iff.mpr]
        intro c hc heq
        exact hnodup.1 (of_decide_eq_true heq ▸ List.mem_map_of_mem hc)
      · have hne : f b ≠ f a := fun heq => hnodup.1 (heq ▸ List.mem_map_of_mem ha)
        rw [List.filter_cons_of_neg (by simpa using hne)]
        exact ih hnodup.2 ha

theorem lossless_iff (hinv : Inv w) (hdispatches : w.dispatches = []) (htasks : w.tasks = []) :
    Lossless w ↔ ¬ w.tally.Missing := by
  constructor
  · rintro h ⟨x, hx, hnowhere⟩
    obtain ⟨payload, registry, hq, r, hr, hmatches, rfl⟩ := mem_handed.mp hx
    refine hnowhere ((mem_present hdispatches htasks).mpr ?_)
    rcases h payload registry hq r hr hmatches with haccepted | ⟨entry, hentry, -⟩
    · exact .inl ⟨_, haccepted, rfl⟩
    · have hmem : entry ∈ w.deadLetters payload r := hentry ▸ List.mem_singleton_self _
      obtain ⟨hmem, hkey⟩ := List.mem_filter.mp hmem
      obtain ⟨hid, hsource⟩ := of_decide_eq_true hkey
      exact .inr ⟨entry, hmem, Prod.ext hid hsource⟩
  · intro h payload registry hq r hr hmatches
    have horigin : w.Origin payload r := ⟨registry, hq, hr⟩
    have hpresent : key payload r ∈ w.tally.present := by
      by_contra hnowhere
      exact h ⟨_, mem_handed.mpr ⟨payload, registry, hq, r, hr, hmatches, rfl⟩, hnowhere⟩
    rcases (mem_present hdispatches htasks).mp hpresent with ⟨a, ha, hkey⟩ | ⟨entry, hentry, hkey⟩
    · obtain ⟨hpayload, hr'⟩ := origin_of_key hinv (hinv.accepted a ha) horigin hkey
      exact .inl (hpayload ▸ hr' ▸ ha)
    · obtain ⟨r', horigin', hsource, htarget⟩ := hinv.dlq entry hentry
      have hsame : key entry.payload r' = key payload r := by
        rw [← hkey, hsource]
        rfl
      obtain ⟨hpayload, rfl⟩ := origin_of_key hinv horigin' horigin hsame
      refine .inr ⟨entry, ?_, hpayload, htarget⟩
      have hnodup : (w.dlq.store.map fun e => (e.payload.id, e.source)).Nodup :=
        Multiset.coe_nodup.mp (Multiset.nodup_add.mp hinv.sound.nodup).2.1
      have hfilter := filter_eq_singleton hnodup hentry
      rw [hkey] at hfilter
      rw [← hfilter]
      unfold World.deadLetters
      congr 1
      funext e
      unfold key
      simp [Prod.ext_iff]

end Losses

/-! ## Endpoints that are routed around -/

/-- No event is routed to the endpoint, and no task is left that could show it to be well. -/
structure Dead (url : String) (w : World D) : Prop where
  around : w.health.poisoned = true ∨ ¬ w.health.Healthy url
  idle : ∀ t ∈ w.tasks, t.registration.url ≠ url

section Endpoints

variable {w w' : World D} {k : Label D} {ks : List (Label D)} {url : String}

theorem not_healthy_congr {s s' : HealthRoutingState} (h : s'.store url = s.store url)
    (hnot : ¬ s.Healthy url) : ¬ s'.Healthy url := by
  unfold HealthRoutingState.Healthy at hnot ⊢
  rwa [h]

/-- An endpoint that is dead stays so: only deliveries to it are recorded for it. -/
theorem Dead.next (hsound : w.health.Sound) (hdead : Dead url w) (h : Step w k w') :
    Dead url w' := by
  cases h with
  | register => exact ⟨hdead.around, hdead.idle⟩
  | delete => exact ⟨hdead.around, hdead.idle⟩
  | raise => exact ⟨hdead.around, hdead.idle⟩
  | @route l₁ l₂ m₁ m₂ payload r hdispatch hroute =>
      obtain ⟨hclear, hhealthy⟩ :=
        (HealthRoutingState.shouldRoute_eq_some_true_iff hsound).mp hroute
      refine ⟨hdead.around, fun t ht => ?_⟩
      rcases List.mem_append.mp ht with ht | ht
      · exact hdead.idle t ht
      · obtain rfl := List.mem_singleton.mp ht
        rintro rfl
        rcases hdead.around with hpoisoned | hnot
        · rw [hclear] at hpoisoned
          cases hpoisoned
        · exact hnot hhealthy
  | skip => exact ⟨hdead.around, hdead.idle⟩
  | checkPanic => exact ⟨hdead.around, hdead.idle⟩
  | returned => exact ⟨hdead.around, hdead.idle⟩
  | @send l₁ l₂ t success htasks hstage =>
      refine ⟨hdead.around, fun t' ht' => ?_⟩
      rcases mem_replaced htasks ht' with ht' | rfl
      · exact hdead.idle t' ht'
      · exact hdead.idle t (mem_middle htasks)
  | @record l₁ l₂ t success now health htasks hstage hrecord =>
      have hother := hdead.idle t (mem_middle htasks)
      refine ⟨?_, fun t' ht' => ?_⟩
      · have hpoisoned := HealthRoutingState.poisoned_recordOutcome (congrArg Prod.snd hrecord)
        have hstore : (w.health.recordOutcome now t.registration.url success).1.store url =
            w.health.store url := HealthRoutingState.recordOutcome_store_ne hother.symm
        rw [hrecord] at hpoisoned hstore
        exact hdead.around.imp hpoisoned.trans (not_healthy_congr hstore)
      · rcases List.mem_append.mp ht' with ht' | ht'
        · rcases List.mem_append.mp ht' with ht' | ht'
          · exact hdead.idle t' (mem_rest htasks (List.mem_append_left _ ht'))
          · rw [← (afterRecord_mem ht').2]
            exact hother
        · exact hdead.idle t' (mem_rest htasks (List.mem_append_right _ ht'))
  | recordPanic htasks hstage hrecord =>
      refine ⟨.inl ?_, fun t ht => hdead.idle t (mem_rest htasks ht)⟩
      have hpoisoned := HealthRoutingState.poisoned_of_recordOutcome (congrArg Prod.snd hrecord)
      rwa [hrecord] at hpoisoned
  | deadLetter htasks hstage hfresh =>
      exact ⟨hdead.around, fun t ht => hdead.idle t (mem_rest htasks ht)⟩
  | replay => exact ⟨hdead.around, hdead.idle⟩

/-- Nothing is sent to it any more. -/
theorem Dead.not_receives (hinv : Inv w) (hdead : Dead url w) : ¬ Receives w url := by
  rintro ⟨ks, w', t, success, hrun, hsend, rfl⟩
  have hnever : (Inv w' ∧ Dead t.registration.url w') ∧
      ∀ t' success, .send t' success ∈ ks → t'.registration.url ≠ t.registration.url := by
    refine hrun.invariantHistory (I := fun ks w => (Inv w ∧ Dead t.registration.url w) ∧
      ∀ t' success, .send t' success ∈ ks → t'.registration.url ≠ t.registration.url)
      ⟨⟨hinv, hdead⟩, fun _ _ h => absurd h List.not_mem_nil⟩ ?_
    rintro ks w k w' ⟨⟨hinv, hdead⟩, hnever⟩ hstep
    refine ⟨⟨inv_step hinv hstep, hdead.next hinv.health hstep⟩, fun t' success hmem => ?_⟩
    rcases List.mem_cons.mp hmem with rfl | hmem
    · cases hstep with
      | send htasks hstage => exact hdead.idle t' (mem_middle htasks)
    · exact hnever t' success hmem
  exact hnever.2 t success hsend rfl

/-- An endpoint that is not routed around gets the next event that is raised for it. -/
theorem receives_of_healthy [Inhabited D] (hinv : Inv w) (hclear : w.health.poisoned = false)
    (hhealthy : w.health.Healthy url) (hurl : url ≠ "") : Receives w url := by
  obtain ⟨id, hid⟩ := Infinite.exists_notMem_finset (w.registrations.map (·.id)).toFinset
  obtain ⟨pid, hpid⟩ := Infinite.exists_notMem_finset (w.raised.map (·.1.id)).toFinset
  let r : WebhookRegistration := ⟨id, url, none, [], 0, true⟩
  let payload : WebhookPayload D := ⟨pid, .vaultCreated, "", 0, default⟩
  let task : DeliveryTask D := ⟨r, payload, 0, .send⟩
  let w₁ : World D := { w with registrations := w.registrations ++ [r] }
  have hregister : Step w (.register ⟨url, none, []⟩ id 0) w₁ := by
    have heq : w₁.registrations = (registerWebhook w.registrations ⟨url, none, []⟩ id 0).2 := by
      unfold registerWebhook
      rw [if_neg hurl]
    show Step w _ { w with registrations := w₁.registrations }
    rw [heq]
    exact .register fun r hr hmem =>
      hid (List.mem_toFinset.mpr (List.mem_map.mpr ⟨r, hr, hmem⟩))
  let others := w.registrations.filter (·.wants payload.eventType payload.vaultId)
  let w₂ : World D := { w₁ with
    dispatches := w₁.dispatches ++ [⟨payload, others ++ [r]⟩]
    raised := (payload, w₁.registrations) :: w₁.raised }
  have hraise : Step w₁ (.raise payload) w₂ := by
    have hwants : w₁.registrations.filter (·.wants payload.eventType payload.vaultId) =
        others ++ [r] := List.filter_append _ _
    show Step w₁ _ { w₁ with
      dispatches := w₁.dispatches ++ [⟨payload, others ++ [r]⟩]
      raised := (payload, w₁.registrations) :: w₁.raised }
    rw [← hwants]
    exact .raise fun q hq hmem => hpid (List.mem_toFinset.mpr (List.mem_map.mpr ⟨q, hq, hmem⟩))
  have hroute : Step w₂ (.check payload r) { w₂ with
      dispatches := w.dispatches ++ [⟨payload, others ++ []⟩]
      tasks := w.tasks ++ [task] } :=
    .route rfl ((HealthRoutingState.shouldRoute_eq_some_true_iff hinv.health).mpr
      ⟨hclear, hhealthy⟩)
  exact ⟨_, _, task, true, .next (.next (.next (.next .start hregister) hraise) hroute)
    (.send rfl rfl), List.mem_cons_self, rfl⟩

/-- When all tasks are over, the endpoints that may receive deliveries are those not routed
around. -/
theorem receives_iff [Inhabited D] (hinv : Inv w) (htasks : w.tasks = []) (hurl : url ≠ "") :
    Receives w url ↔ w.health.poisoned = false ∧ w.health.Healthy url := by
  constructor
  · intro h
    by_contra hnot
    have haround : w.health.poisoned = true ∨ ¬ w.health.Healthy url := by
      rwa [not_and_or, Bool.not_eq_false] at hnot
    exact Dead.not_receives hinv ⟨haround, fun t ht => by rw [htasks] at ht; cases ht⟩ h
  · rintro ⟨hclear, hhealthy⟩
    exact receives_of_healthy hinv hclear hhealthy hurl

end Endpoints

/-- When all calls and tasks of a run have finished: no event is lost and every registered
endpoint can receive deliveries again, exactly if no step found an endpoint with five failures
in a row, a full count or the dead-letter queue behind a poisoned lock, and no registered endpoint
has five failures in a row now. -/
theorem delivered_iff [Inhabited D] {ks : List (Label D)} {w : World D}
    (hrun : Run Step .start ks w) (hdispatches : w.dispatches = []) (htasks : w.tasks = []) :
    Lossless w ∧ Recoverable w ↔
      Run (Guarded Step Fine) .start ks w ∧ ∀ r ∈ w.registrations, w.health.Healthy r.url := by
  have hinv := inv_of_run hrun
  have hreceives := fun r hr => receives_iff hinv htasks (hinv.urls r hr)
  rw [lossless_iff hinv hdispatches htasks]
  constructor
  · rintro ⟨hmissing, hrecoverable⟩
    have hhealthy := fun r hr => (hreceives r hr).mp (hrecoverable r hr)
    refine ⟨fine_of_not_spoiled hrun ?_, fun r hr => (hhealthy r hr).2⟩
    rintro (hlost | hpoisoned)
    · exact hmissing hlost
    · obtain ⟨r, hr⟩ := List.exists_mem_of_ne_nil _ (hinv.panicked hpoisoned)
      rw [(hhealthy r hr).1] at hpoisoned
      cases hpoisoned
  · rintro ⟨hfine, hhealthy⟩
    have hspoiled := not_or.mp (not_spoiled_of_run hfine)
    exact ⟨hspoiled.1, fun r hr =>
      (hreceives r hr).mpr ⟨Bool.eq_false_iff.mpr hspoiled.2, hhealthy r hr⟩⟩

/-! ## Playing a run -/

instance (s : HealthRoutingState) (endpoint : String) : Decidable (s.Healthy endpoint) :=
  decidable_of_iff ((s.store endpoint).all (·.isHealthy) = true) (by
    unfold HealthRoutingState.Healthy
    cases s.store endpoint <;> simp)

instance (s : HealthRoutingState) (endpoint : String) : Decidable (s.Countable endpoint) :=
  decidable_of_iff ((s.store endpoint).all (fun h => decide (h.totalRequests < u32Max)) = true) (by
    unfold HealthRoutingState.Countable
    cases s.store endpoint <;> simp)

instance (w : World D) : DecidablePred (Fine w) := fun k => by
  unfold Fine
  split <;> infer_instance

instance (w : World D) : Decidable w.tally.Missing :=
  inferInstanceAs (Decidable (∃ x ∈ w.tally.handed, x ∉ w.tally.present))

/-- The next step of the oldest call or the oldest task. -/
inductive Turn (D : Type)
  | register (body : RegisterWebhookRequest) (id : String)
  | raise (payload : WebhookPayload D)
  | check
  | returned
  | send (success : Bool)
  | record
  | deadLetter (id : String)

def World.turn (w : World D) : Turn D → Option (Label D × World D)
  | .register body id =>
      if ∀ r ∈ w.registrations, r.id ≠ id then
        some (.register body id 0,
          { w with registrations := (registerWebhook w.registrations body id 0).2 })
      else none
  | .raise payload =>
      if ∀ q ∈ w.raised, q.1.id ≠ payload.id then
        some (.raise payload, { w with
          dispatches := w.dispatches ++ [⟨payload,
            w.registrations.filter (·.wants payload.eventType payload.vaultId)⟩]
          raised := (payload, w.registrations) :: w.raised })
      else none
  | .check =>
      match w.dispatches with
      | ⟨payload, r :: rest⟩ :: dispatches =>
          match w.health.shouldRoute r.url with
          | some true => some (.check payload r, { w with
              dispatches := ⟨payload, rest⟩ :: dispatches
              tasks := w.tasks ++ [⟨r, payload, 0, .send⟩] })
          | some false => some (.check payload r, { w with
              dispatches := ⟨payload, rest⟩ :: dispatches })
          | none => none
      | _ => none
  | .returned =>
      match w.dispatches with
      | ⟨payload, []⟩ :: dispatches => some (.returned payload, { w with dispatches := dispatches })
      | _ => none
  | .send success =>
      match w.tasks with
      | t :: tasks =>
          if t.stage = .send then
            some (.send t success, { w with
              tasks := { t with stage := .record success } :: tasks
              accepted := if success then (t.payload, t.registration) :: w.accepted
                else w.accepted })
          else none
      | [] => none
  | .record =>
      match w.tasks with
      | t :: tasks =>
          match t.stage with
          | .record success =>
              let recorded := w.health.recordOutcome 0 t.registration.url success
              if recorded.2 then
                some (.record t 0, { w with
                  health := recorded.1
                  tasks := (t.afterRecord success).toList ++ tasks })
              else none
          | _ => none
      | [] => none
  | .deadLetter id =>
      match w.tasks with
      | t :: tasks =>
          if t.stage = .exhausted ∧ ∀ entry ∈ w.dlq.store, entry.id ≠ id then
            some (.deadLetter t id 0, { w with
              tasks := tasks
              dlq := routeToDlq w.dlq id 0 (dlqSource t.registration) (some t.registration.url)
                t.payload "exhausted all delivery retries" (maxRetries + 1) })
          else none
      | [] => none

theorem step_of_turn (w : World D) (turn : Turn D) (k : Label D) (w' : World D)
    (h : w.turn turn = some (k, w')) : Step w k w' := by
  unfold World.turn at h
  cases turn with
  | register body id =>
      dsimp only at h
      split at h
      · next hfresh =>
          cases h
          exact .register hfresh
      · cases h
  | raise payload =>
      dsimp only at h
      split at h
      · next hfresh =>
          cases h
          exact .raise hfresh
      · cases h
  | check =>
      dsimp only at h
      split at h
      · next hdispatches =>
          split at h
          · next hroute =>
              cases h
              exact @Step.route _ _ [] _ [] _ _ _ hdispatches hroute
          · next hroute =>
              cases h
              exact @Step.skip _ _ [] _ [] _ _ _ hdispatches hroute
          · cases h
      · cases h
  | returned =>
      dsimp only at h
      split at h
      · next hdispatches =>
          cases h
          exact @Step.returned _ _ [] _ _ hdispatches
      · cases h
  | send success =>
      dsimp only at h
      split at h
      · next htasks =>
          split at h
          · next hstage =>
              cases h
              exact @Step.send _ _ [] _ _ _ htasks hstage
          · cases h
      · cases h
  | record =>
      dsimp only at h
      split at h
      · next htasks =>
          split at h
          · next hstage =>
              split at h
              · next hreturns =>
                  cases h
                  exact @Step.record _ _ [] _ _ _ _ _ htasks hstage (Prod.ext rfl hreturns)
              · cases h
          · cases h
      · cases h
  | deadLetter id =>
      dsimp only at h
      split at h
      · next htasks =>
          split at h
          · next hstage =>
              cases h
              exact @Step.deadLetter _ _ [] _ _ _ _ htasks hstage.1 hstage.2
          · cases h
      · cases h

/-- An endpoint accepts an event at the second attempt. -/
theorem delivered_at_second_attempt : ∃ (ks : List (Label Nat)) (w : World Nat),
    Run Step .start ks w ∧ w.accepted.length = 1 ∧ Lossless w ∧ Recoverable w := by
  let turns : List (Turn Nat) := [.register ⟨"https://a.example", none, []⟩ "r",
    .raise ⟨"e", .vaultDeposit, "7", 0, 100⟩, .check, .returned, .send false, .record, .send true,
    .record]
  have hplayed : ((play World.turn (fun w k => decide (Fine w k)) .start turns).any fun p =>
      p.2.dispatches.isEmpty && p.2.tasks.isEmpty && decide (p.2.accepted.length = 1) &&
        p.2.registrations.all fun r => decide (p.2.health.Healthy r.url)) = true := by
    decide +kernel
  rw [Option.any_eq_true] at hplayed
  obtain ⟨⟨ks, w⟩, hplay, hend⟩ := hplayed
  simp only [Bool.and_eq_true, List.isEmpty_iff, List.all_eq_true, decide_eq_true_eq] at hend
  obtain ⟨⟨⟨hdispatches, htasks⟩, haccepted⟩, hhealthy⟩ := hend
  have hfine : Run (Guarded Step Fine) .start ks w :=
    (run_of_play step_of_turn hplay).mono fun _ _ _ h => ⟨h.1, of_decide_eq_true h.2⟩
  exact ⟨ks, w, hfine.unguard, haccepted,
    (delivered_iff hfine.unguard hdispatches htasks).mpr ⟨hfine, hhealthy⟩⟩

/-- An endpoint fails the five attempts of one event, which becomes a dead letter. The next
event is not attempted, has no dead letter, and nothing is ever sent to the endpoint again. -/
theorem skipped_delivery : ¬ ∀ (ks : List (Label Nat)) (w : World Nat), Run Step .start ks w →
    w.dispatches = [] → w.tasks = [] → Lossless w ∧ Recoverable w := by
  intro h
  let turns : List (Turn Nat) := [.register ⟨"https://a.example", none, []⟩ "r",
    .raise ⟨"e", .vaultDeposit, "7", 0, 100⟩, .check, .returned, .send false, .record, .send false,
    .record, .send false, .record, .send false, .record, .send false, .record, .deadLetter "d",
    .raise ⟨"e'", .vaultWithdrawal, "7", 9, 50⟩, .check, .returned]
  have hplayed : ((play World.turn (fun _ _ => true) .start turns).any fun p =>
      p.2.dispatches.isEmpty && p.2.tasks.isEmpty && decide p.2.tally.Missing) = true := by
    decide +kernel
  rw [Option.any_eq_true] at hplayed
  obtain ⟨⟨ks, w⟩, hplay, hend⟩ := hplayed
  simp only [Bool.and_eq_true, List.isEmpty_iff, decide_eq_true_eq] at hend
  obtain ⟨⟨hdispatches, htasks⟩, hmissing⟩ := hend
  have hrun : Run Step .start ks w := (run_of_play step_of_turn hplay).unguard
  have hlossless := (h ks w hrun hdispatches htasks).1
  exact (lossless_iff (inv_of_run hrun) hdispatches htasks).mp hlossless hmissing

end Heirloom.Backend.WebhookDelivery
