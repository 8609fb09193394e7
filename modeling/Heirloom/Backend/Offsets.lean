import Heirloom.Lib.Runs
import Heirloom.Backend.MessageQueue

/-!
# Offsets of consumer groups

`process` reads the messages and the offset of its group in two steps and writes an
absolute offset at the end. A commit of another consumer between the two reads makes it
count from the wrong message; one before its own commit may be taken back.

Results:
1. `no_message_skipped`: below the offset of a group every message has been handled or is
   in the dead-letter queue, and the offset never decreases, in every run in which the offset
   of the group is not moved between the poll of a call and its commit.
2. `message_skipped`: a call that reads the offset after another call has committed.
-/

namespace Heirloom.Backend.MessageQueue

open Runs

/-- The messages of a partition, in their order. -/
def messages (s : QueueState) (topic : String) (partition : Nat) : List QueueMessage :=
  match s.broker topic with
  | some store => (store.partitions[partition]?).getD []
  | none => []

def dlq (s : QueueState) (topic : String) : List QueueMessage :=
  match s.broker topic with
  | some store => store.dlq
  | none => []

/-- The message has been handled by the group or is in the dead-letter queue. -/
def Settled (s : QueueState) (topic consumerGroup : String) (m : QueueMessage) : Prop :=
  (∃ h ∈ s.handled, h.1 = consumerGroup ∧ h.2.id = m.id) ∨ ∃ d ∈ dlq s topic, d.id = m.id

/-- The first `n` messages of the partition are there and settled for the group. -/
def SettledBelow (s : QueueState) (topic : String) (partition : Nat) (consumerGroup : String)
    (n : Nat) : Prop :=
  ∀ p < n, ∃ m, (messages s topic partition)[p]? = some m ∧ Settled s topic consumerGroup m

/-- No other call has moved the offset of the group since the poll of a call that commits: it
was the one of the poll when the call read it, and it still is. -/
def Undisturbed (s : QueueState) : QueueAction → Prop
  | .resume c _ => ∀ call loop, s.calls c = some call → call.progress = .handling loop →
      loop.rest = [] → loop.startOffset < loop.lastGoodOffset →
      loop.startOffset = call.polledAt ∧
        committed s call.topic call.partition call.consumerGroup = call.polledAt
  | _ => True

/-! ## What the operations of the broker leave -/

/-- Nothing is lost from `s` to `t`. -/
structure Grows (s t : QueueState) : Prop where
  messages : ∀ topic partition, messages s topic partition <+: messages t topic partition
  handled : ∀ h ∈ s.handled, h ∈ t.handled
  dlq : ∀ topic, ∀ d ∈ dlq s topic, d ∈ dlq t topic

section Operations

variable {s t u : QueueState} {topic group : String} {partition n : Nat} {m : QueueMessage}
  {broker : MessageBroker}

theorem Grows.rfl : Grows s s := ⟨fun _ _ => List.prefix_rfl, fun _ h => h, fun _ _ h => h⟩

theorem Grows.settled (h : Grows s t) (hm : Settled s topic group m) : Settled t topic group m := by
  rcases hm with ⟨x, hx, hxm⟩ | ⟨d, hd, hdm⟩
  · exact .inl ⟨x, h.handled x hx, hxm⟩
  · exact .inr ⟨d, h.dlq topic d hd, hdm⟩

theorem Grows.message (h : Grows s t) (hm : (MessageQueue.messages s topic partition)[n]? = some m) :
    (MessageQueue.messages t topic partition)[n]? = some m := by
  obtain ⟨later, hlater⟩ := h.messages topic partition
  obtain ⟨hn, -⟩ := List.getElem?_eq_some_iff.mp hm
  rw [← hlater, List.getElem?_append_left hn, hm]

theorem Grows.settledBelow (h : Grows s t) (hn : SettledBelow s topic partition group n) :
    SettledBelow t topic partition group n := by
  intro p hp
  obtain ⟨m, hm, hsettled⟩ := hn p hp
  exact ⟨m, h.message hm, h.settled hsettled⟩

/-- Replacing the store of a topic by one that keeps its messages and rejected ones. -/
theorem grows_update {store store' : TopicStore} (hstore : s.broker topic = some store)
    (hbroker : broker = Function.update s.broker topic (some store'))
    (hmessages : ∀ partition : Nat, (store.partitions[partition]?).getD [] <+:
      (store'.partitions[partition]?).getD [])
    (hdlq : ∀ d ∈ store.dlq, d ∈ store'.dlq) : Grows s { s with broker } := by
  subst hbroker
  refine ⟨fun topic' partition => ?_, fun _ h => h, fun topic' => ?_⟩
  · by_cases h : topic' = topic
    · subst h
      simpa [MessageQueue.messages, hstore] using hmessages partition
    · simp [MessageQueue.messages, h]
  · by_cases h : topic' = topic
    · subst h
      simpa [MessageQueue.dlq, hstore] using hdlq
    · simp [MessageQueue.dlq, h]

theorem committed_update {store store' : TopicStore} (hstore : s.broker topic = some store)
    (hoffsets : store'.offsets = store.offsets) (topic' : String) :
    committed { s with broker := Function.update s.broker topic (some store') } topic' partition
      group = committed s topic' partition group := by
  by_cases h : topic' = topic
  · subst h
    simp [committed, hstore, hoffsets]
  · simp [committed, h]

theorem store_ok {store : TopicStore} (h : s.broker.store topic = .ok store) :
    s.broker topic = some store := by
  unfold MessageBroker.store at h
  cases hstore : s.broker topic with
  | none => simp [hstore] at h
  | some store' =>
      simp only [hstore, Except.ok.injEq] at h
      rw [h]

theorem publish_grows {key : Option String} {headers : List (String × String)} {payload : Value}
    {manualPartition : Option Nat} {id : String} {now : Nat}
    (h : s.broker.publish topic key headers payload manualPartition id now = .ok broker) :
    Grows s { s with broker } ∧ ∀ topic' partition group,
      committed { s with broker } topic' partition group = committed s topic' partition group := by
  unfold MessageBroker.publish at h
  cases hstore : s.broker.store topic with
  | error e => simp [hstore, bind, Except.bind] at h
  | ok store =>
      simp only [hstore, bind, Except.bind] at h
      split at h
      · cases h
      · cases h
        refine ⟨grows_update (store_ok hstore) rfl (fun p => ?_) fun d hd => hd, fun _ _ _ =>
          committed_update (store_ok hstore) (by rfl) _⟩
        rw [List.getElem?_modify]
        cases store.partitions[p]? with
        | none => exact List.prefix_rfl
        | some messages =>
            simp only [Option.getD_some]
            split
            · exact List.prefix_append _ _
            · exact List.prefix_rfl

theorem createTopic_grows (config : TopicConfig) :
    Grows s { s with broker := s.broker.createTopic config } ∧ ∀ topic partition group,
      committed { s with broker := s.broker.createTopic config } topic partition group =
        committed s topic partition group := by
  unfold MessageBroker.createTopic
  cases hstore : s.broker config.name with
  | some store => exact ⟨.rfl, fun _ _ _ => rfl⟩
  | none =>
      refine ⟨⟨fun topic partition => ?_, fun _ h => h, fun topic d hd => ?_⟩, fun topic _ _ => ?_⟩
      · by_cases h : topic = config.name
        · subst h
          simp [MessageQueue.messages, hstore]
        · simp [MessageQueue.messages, h]
      · by_cases h : topic = config.name
        · subst h
          simp [MessageQueue.dlq, hstore] at hd
        · simpa [MessageQueue.dlq, h] using hd
      · by_cases h : topic = config.name
        · subst h
          simp [committed, hstore]
        · simp [committed, h]

theorem sendToDlq_grows (h : s.broker.sendToDlq topic m = .ok broker) :
    Grows s { s with broker } ∧ (∃ d ∈ dlq { s with broker } topic, d.id = m.id) ∧
      ∀ topic' partition group,
        committed { s with broker } topic' partition group = committed s topic' partition group := by
  unfold MessageBroker.sendToDlq at h
  cases hstore : s.broker.store topic with
  | error e => simp [hstore, bind, Except.bind] at h
  | ok store =>
      simp only [hstore, bind, Except.bind] at h
      cases h
      refine ⟨grows_update (store_ok hstore) rfl (fun _ => List.prefix_rfl) fun d hd =>
        List.mem_append_left _ hd, ⟨m.insertHeader "dlq_reason" "max_retries_exceeded", ?_, rfl⟩,
        fun _ _ _ => committed_update (store_ok hstore) (by rfl) _⟩
      simp [MessageQueue.dlq]

theorem commitOffset_grows (h : s.broker.commitOffset topic partition group n = .ok broker) :
    Grows s { s with broker } ∧ committed { s with broker } topic partition group = n ∧
      ∀ topic' partition' group', (topic', partition', group') ≠ (topic, partition, group) →
        committed { s with broker } topic' partition' group' =
          committed s topic' partition' group' := by
  unfold MessageBroker.commitOffset at h
  cases hstore : s.broker.store topic with
  | error e => simp [hstore, bind, Except.bind] at h
  | ok store =>
      simp only [hstore, bind, Except.bind] at h
      cases h
      refine ⟨grows_update (store_ok hstore) rfl (fun _ => List.prefix_rfl) fun d hd => hd,
        by simp [committed], fun topic' partition' group' hne => ?_⟩
      by_cases h : topic' = topic
      · subst h
        have hkey : (group', partition') ≠ (group, partition) := by
          rintro ⟨⟩
          exact hne rfl
        simp [committed, store_ok hstore, Function.update_of_ne hkey]
      · simp [committed, h]

theorem currentOffset_ok (h : s.broker.currentOffset topic partition group = .ok n) :
    n = committed s topic partition group := by
  unfold MessageBroker.currentOffset at h
  cases hstore : s.broker.store topic with
  | error e => simp [hstore, bind, Except.bind] at h
  | ok store =>
      simp only [hstore, bind, Except.bind] at h
      cases h
      simp [committed, store_ok hstore]

/-- A poll reads from the committed offset on. -/
theorem poll_ok {max : Nat} {msgs : List QueueMessage}
    (h : s.broker.poll topic partition group max = .ok msgs) :
    msgs = ((MessageQueue.messages s topic partition).drop
      (committed s topic partition group)).take max := by
  unfold MessageBroker.poll at h
  cases hstore : s.broker.store topic with
  | error e => simp [hstore, bind, Except.bind] at h
  | ok store =>
      simp only [hstore, bind, Except.bind] at h
      split at h
      · cases h
      · next messages hmessages =>
        cases h
        simp [MessageQueue.messages, committed, store_ok hstore, hmessages]

end Operations

/-! ## The calls of a run -/

/-- The loop of a call that has the messages `pending` still to look at: what it counts as
done is settled, and unless it has been left it has looked at all before them. -/
structure LoopOk (s : QueueState) (call : ProcessCall) (loop : Loop)
    (pending : List QueueMessage) : Prop where
  below : SettledBelow s call.topic call.partition call.consumerGroup loop.startOffset
  done : ∀ j, loop.startOffset + j < loop.lastGoodOffset →
    ∃ m, call.msgs[j]? = some m ∧ Settled s call.topic call.consumerGroup m
  pending_eq : pending = [] ∨
    pending = call.msgs.drop loop.i ∧ loop.lastGoodOffset = loop.startOffset + loop.i

def ProgressOk (s : QueueState) (call : ProcessCall) : Progress → Prop
  | .polled | .returned _ => True
  | .handling loop => LoopOk s call loop loop.rest
  | .rejecting msg loop => LoopOk s call loop (msg :: loop.rest)

structure CallOk (s : QueueState) (call : ProcessCall) : Prop where
  polled : ∀ (j : Nat) m, call.msgs[j]? = some m →
    (messages s call.topic call.partition)[call.polledAt + j]? = some m
  progress : ProgressOk s call call.progress

/-- Below every offset the messages are settled, and so is what the calls count as done. -/
structure Covered (s : QueueState) : Prop where
  below : ∀ topic partition group,
    SettledBelow s topic partition group (committed s topic partition group)
  calls : ∀ c call, s.calls c = some call → CallOk s call

section Calls

variable {s t u : QueueState} {c : Nat} {call : ProcessCall} {loop : Loop} {m : QueueMessage}
  {rest : List QueueMessage} {progress : Progress} {k : QueueAction}

theorem Grows.loopOk (h : Grows s t) (hloop : LoopOk s call loop rest) : LoopOk t call loop rest := by
  refine ⟨h.settledBelow hloop.below, fun j hj => ?_, hloop.pending_eq⟩
  obtain ⟨m, hm, hsettled⟩ := hloop.done j hj
  exact ⟨m, hm, h.settled hsettled⟩

theorem Grows.progressOk (h : Grows s t) (hp : ProgressOk s call progress) :
    ProgressOk t call progress := by
  cases progress with
  | polled | returned => trivial
  | handling loop => exact h.loopOk hp
  | rejecting msg loop => exact h.loopOk hp

theorem Grows.callOk (h : Grows s t) (hcall : CallOk s call) : CallOk t call :=
  ⟨fun j m hm => h.message (hcall.polled j m hm), h.progressOk hcall.progress⟩

/-- The message at the front is settled, and the loop gets on to the next. -/
theorem LoopOk.advance (h : LoopOk s call loop (m :: rest)) (hgrows : Grows s t)
    (hm : Settled t call.topic call.consumerGroup m) (summary : ProcessSummary) :
    LoopOk t call (loop.advance summary rest) rest := by
  rcases h.pending_eq with hnil | ⟨hpending, hlast⟩
  · cases hnil
  · have hfront : call.msgs[loop.i]? = some m := by
      rw [← List.head?_drop, ← hpending]
      rfl
    refine ⟨hgrows.settledBelow h.below, fun j hj => ?_, .inr ⟨?_, rfl⟩⟩
    · have hle : loop.startOffset + j < loop.lastGoodOffset ∨ j = loop.i := by
        have hlt : loop.startOffset + j < loop.startOffset + loop.i + 1 := hj
        omega
      rcases hle with hlt | rfl
      · exact (hgrows.loopOk h).done j hlt
      · exact ⟨m, hfront, hm⟩
    · show rest = call.msgs.drop (loop.i + 1)
      rw [← List.drop_drop, ← hpending]
      rfl

/-- What a step does to the offsets and the calls. -/
inductive Moves (s : QueueState) (k : QueueAction) (t : QueueState) : Prop
  | quiet (hgrows : Grows s t)
      (hsame : ∀ topic partition group,
        committed t topic partition group = committed s topic partition group)
      (hcalls : ∀ c call, t.calls c = some call → s.calls c = some call ∨ CallOk t call)
  | commits {c : Nat} {ok : Bool} {call : ProcessCall} {loop : Loop} (hk : k = .resume c ok)
      (hcall : s.calls c = some call) (hprogress : call.progress = .handling loop)
      (hrest : loop.rest = []) (hlt : loop.startOffset < loop.lastGoodOffset)
      (hgrows : Grows s t)
      (hcommitted : committed t call.topic call.partition call.consumerGroup =
        loop.lastGoodOffset)
      (hsame : ∀ topic partition group,
        (topic, partition, group) ≠ (call.topic, call.partition, call.consumerGroup) →
          committed t topic partition group = committed s topic partition group)
      (hcalls : ∀ c call, t.calls c = some call → s.calls c = some call ∨ CallOk t call)

theorem Grows.put (h : Grows s u) : Grows s (u.put c call progress) :=
  ⟨h.messages, h.handled, h.dlq⟩

theorem ProgressOk.put (h : ProgressOk u call progress) :
    ProgressOk (u.put c call progress) { call with progress } progress := by
  cases progress with
  | polled | returned => trivial
  | handling loop | rejecting msg loop => exact ⟨h.below, h.done, h.pending_eq⟩

/-- The call `c` gets on, in a state `u` that has grown from `s`. -/
theorem calls_put (hcall : CallOk s call) (hcalls : u.calls = s.calls) (hgrows : Grows s u)
    (hp : ProgressOk u call progress) (c' : Nat) (call' : ProcessCall)
    (h : (u.put c call progress).calls c' = some call') :
    s.calls c' = some call' ∨ CallOk (u.put c call progress) call' := by
  by_cases hc : c' = c
  · subst hc
    have hput : (u.put c' call progress).calls c' = some { call with progress } :=
      Function.update_self c' _ _
    obtain rfl := Option.some.inj (hput.symm.trans h)
    exact .inr ⟨fun j m hm => hgrows.message (hcall.polled j m hm), hp.put⟩
  · have hput : (u.put c call progress).calls c' = u.calls c' := Function.update_of_ne hc _ _
    rw [hput, hcalls] at h
    exact .inl h

theorem quiet_put (hcall : CallOk s call) (hp : ProgressOk s call progress) :
    Moves s k (s.put c call progress) :=
  .quiet Grows.rfl.put (fun _ _ _ => rfl) (calls_put hcall rfl .rfl hp)

theorem readOffset_moves (h : Covered s) (hcall : CallOk s call) : Moves s k (s.readOffset c call) := by
  unfold QueueState.readOffset
  cases hread : s.broker.currentOffset call.topic call.partition call.consumerGroup with
  | error e => exact quiet_put hcall trivial
  | ok start =>
      refine quiet_put hcall ⟨?_, fun j hj => ?_, .inr ⟨rfl, rfl⟩⟩
      · rw [currentOffset_ok hread]
        exact h.below _ _ _
      · exact absurd hj (Nat.not_lt.mpr (Nat.le_add_right _ _))

theorem handleNext_moves (hcall : CallOk s call) (hloop : LoopOk s call loop (m :: rest))
    (ok : Bool) : Moves s k (s.handleNext c call loop m rest ok) := by
  unfold QueueState.handleNext
  split
  · -- the message is handled
    have hgrows : Grows s { s with handled := s.handled ++ [(call.consumerGroup, m)] } :=
      ⟨fun _ _ => List.prefix_rfl, fun _ hx => List.mem_append_left _ hx, fun _ _ hd => hd⟩
    have hadvanced := hloop.advance hgrows (.inl ⟨_, List.mem_append_right _
      (List.mem_singleton.mpr rfl), rfl, rfl⟩)
      { loop.summary with processed := loop.summary.processed + 1 }
    exact .quiet hgrows.put (fun _ _ _ => rfl)
      (calls_put (u := { s with handled := s.handled ++ [(call.consumerGroup, m)] }) hcall rfl
        hgrows hadvanced)
  · dsimp only
    split
    · exact quiet_put hcall ⟨hloop.below, hloop.done, hloop.pending_eq⟩
    · exact quiet_put hcall ⟨hloop.below, hloop.done, .inl rfl⟩

theorem reject_moves (hcall : CallOk s call) (hloop : LoopOk s call loop (m :: loop.rest)) :
    Moves s k (s.reject c call loop m) := by
  unfold QueueState.reject
  cases hsend : s.broker.sendToDlq call.topic m with
  | error e => exact quiet_put hcall trivial
  | ok broker =>
      obtain ⟨hgrows, hdlq, hsame⟩ := sendToDlq_grows hsend
      refine .quiet hgrows.put hsame (calls_put hcall rfl hgrows ?_)
      exact hloop.advance hgrows (.inr hdlq) _

theorem finish_moves {ok : Bool} (hc : s.calls c = some call) (hcall : CallOk s call)
    (hprogress : call.progress = .handling loop) (hrest : loop.rest = []) :
    Moves s (.resume c ok) (s.finish c call loop) := by
  unfold QueueState.finish
  split
  · next hlt =>
    cases hcommit : s.broker.commitOffset call.topic call.partition call.consumerGroup
        loop.lastGoodOffset with
    | error e => exact quiet_put hcall trivial
    | ok broker =>
        obtain ⟨hgrows, hcommitted, hsame⟩ := commitOffset_grows hcommit
        exact .commits rfl hc hprogress hrest hlt hgrows.put hcommitted hsame
          (calls_put hcall rfl hgrows trivial)
  · exact quiet_put hcall trivial

theorem resume_moves {ok : Bool} (h : Covered s) (hc : s.calls c = some call) :
    Moves s (.resume c ok) (s.resume c call ok) := by
  have hcall := h.calls c call hc
  have hp := hcall.progress
  cases hprogress : call.progress with
  | polled =>
      have heq : s.resume c call ok = s.readOffset c call := by
        simp only [QueueState.resume, hprogress]
      exact heq ▸ readOffset_moves h hcall
  | handling loop =>
      rw [hprogress] at hp
      cases hrest : loop.rest with
      | nil =>
          have heq : s.resume c call ok = s.finish c call loop := by
            simp only [QueueState.resume, hprogress, hrest]
          exact heq ▸ finish_moves hc hcall hprogress hrest
      | cons msg rest =>
          have heq : s.resume c call ok = s.handleNext c call loop msg rest ok := by
            simp only [QueueState.resume, hprogress, hrest]
          simp only [ProgressOk, hrest] at hp
          exact heq ▸ handleNext_moves hcall hp ok
  | rejecting msg loop =>
      rw [hprogress] at hp
      have heq : s.resume c call ok = s.reject c call loop msg := by
        simp only [QueueState.resume, hprogress]
      exact heq ▸ reject_moves hcall hp
  | returned result =>
      have heq : s.resume c call ok = s := by
        simp only [QueueState.resume, hprogress]
      rw [heq]
      exact .quiet .rfl (fun _ _ _ => rfl) fun _ _ h => .inl h

theorem step_moves (h : Covered s) (hk : QueueStep s k t) : Moves s k t := by
  unfold QueueStep step at hk
  cases k with
  | createTopic config =>
      cases hk
      obtain ⟨hgrows, hsame⟩ := createTopic_grows (s := s) config
      exact .quiet hgrows hsame fun _ _ h => .inl h
  | publish topic key headers payload manualPartition id now =>
      dsimp only at hk
      split at hk
      · next hpublish =>
        cases hk
        obtain ⟨hgrows, hsame⟩ := publish_grows hpublish
        exact .quiet hgrows hsame fun _ _ h => .inl h
      · cases hk
      · cases hk
        exact .quiet .rfl (fun _ _ _ => rfl) fun _ _ h => .inl h
  | process c topic partition group maxMessages maxRetries =>
      dsimp only at hk
      split at hk
      · cases hk
      · split at hk
        · cases hk
          exact .quiet .rfl (fun _ _ _ => rfl) fun _ _ h => .inl h
        · next msgs hpoll =>
          cases hk
          refine quiet_put ⟨fun j m hm => ?_, trivial⟩ trivial
          simp only [poll_ok hpoll, List.getElem?_take, List.getElem?_drop] at hm
          split at hm
          · exact hm
          · cases hm
  | resume c ok =>
      obtain ⟨call, hc, rfl⟩ := Option.map_eq_some_iff.mp hk
      exact resume_moves h hc

end Calls

/-! ## Runs -/

section Runs

variable {s t u : QueueState} {k : QueueAction} {ks : List QueueAction}

theorem calls_of_grows (h : Covered s) (hgrows : Grows s t)
    (hcalls : ∀ c call, t.calls c = some call → s.calls c = some call ∨ CallOk t call)
    (c : Nat) (call : ProcessCall) (hc : t.calls c = some call) : CallOk t call := by
  rcases hcalls c call hc with hold | hnew
  · exact hgrows.callOk (h.calls c call hold)
  · exact hnew

theorem covered_step (h : Covered s) (hk : Guarded QueueStep Undisturbed s k t) : Covered t := by
  cases step_moves h hk.1 with
  | quiet hgrows hsame hcalls =>
      refine ⟨fun topic partition group => ?_, calls_of_grows h hgrows hcalls⟩
      rw [hsame]
      exact hgrows.settledBelow (h.below topic partition group)
  | @commits c ok call loop hk' hcall hprogress hrest hlt hgrows hcommitted hsame hcalls =>
      refine ⟨fun topic partition group => ?_, calls_of_grows h hgrows hcalls⟩
      by_cases hkey : (topic, partition, group) =
          (call.topic, call.partition, call.consumerGroup)
      · cases hkey
        rw [hcommitted]
        -- the call has read the offset it polled at
        subst hk'
        obtain ⟨hread, -⟩ := hk.2 call loop hcall hprogress hrest hlt
        have hok := hgrows.callOk (h.calls c call hcall)
        have hloop : LoopOk t call loop loop.rest := by
          have := hok.progress
          rwa [hprogress] at this
        intro p hp
        rcases Nat.lt_or_ge p loop.startOffset with hlow | hhigh
        · exact hloop.below p hlow
        · obtain ⟨j, rfl⟩ := Nat.exists_eq_add_of_le hhigh
          obtain ⟨m, hm, hsettled⟩ := hloop.done j hp
          exact ⟨m, hread ▸ hok.polled j m hm, hsettled⟩
      · rw [hsame _ _ _ hkey]
        exact hgrows.settledBelow (h.below topic partition group)

/-- The offset of a group does not decrease. -/
theorem committed_le (h : Covered s) (hk : Guarded QueueStep Undisturbed s k t) (topic : String)
    (partition : Nat) (group : String) :
    committed s topic partition group ≤ committed t topic partition group := by
  cases step_moves h hk.1 with
  | quiet hgrows hsame hcalls => exact (hsame topic partition group).ge
  | @commits c ok call loop hk' hcall hprogress hrest hlt hgrows hcommitted hsame hcalls =>
      by_cases hkey : (topic, partition, group) =
          (call.topic, call.partition, call.consumerGroup)
      · cases hkey
        subst hk'
        obtain ⟨hread, hstill⟩ := hk.2 call loop hcall hprogress hrest hlt
        rw [hcommitted, hstill, ← hread]
        exact hlt.le
      · exact (hsame _ _ _ hkey).ge

theorem covered_new : Covered .new :=
  ⟨fun _ _ _ _ hp => absurd hp (Nat.not_lt_zero _), fun _ _ hc => by cases hc⟩

/-- No message below the offset of a group is skipped, and the offset never decreases. -/
theorem no_message_skipped (h : Run (Guarded QueueStep Undisturbed) .new ks t) :
    (∀ topic partition group,
      SettledBelow t topic partition group (committed t topic partition group)) ∧
    ∀ k u, Guarded QueueStep Undisturbed t k u → ∀ topic partition group,
      committed t topic partition group ≤ committed u topic partition group := by
  have hcovered := h.invariant covered_new fun _ _ _ => covered_step
  exact ⟨hcovered.below, fun k u hk => committed_le hcovered hk⟩

end Runs

/-! ## Two runs -/

def play (s : QueueState) : List QueueAction → Option QueueState
  | [] => some s
  | k :: ks => (step s k).bind fun t => play t ks

theorem run_of_play {s t : QueueState} {ks : List QueueAction} (h : play s ks = some t) :
    Run QueueStep s ks.reverse t := by
  induction ks generalizing s with
  | nil =>
      cases h
      exact .start
  | cons k ks ih =>
      obtain ⟨u, hu, hrest⟩ := Option.bind_eq_some_iff.mp h
      rw [List.reverse_cons]
      exact Run.trans (.next .start hu) (ih hrest)

def publishSample (id : String) : QueueAction := .publish "vaults" none [] .null none id 0

/-- A topic with one partition and two messages. -/
def sampleTopic : List QueueAction :=
  [.createTopic ⟨"vaults", 1, .roundRobin, 3⟩, publishSample "m0", publishSample "m1"]

theorem guarded_next {s t : QueueState} {ks : List QueueAction} (k : QueueAction)
    (h : Run (Guarded QueueStep Undisturbed) .new ks s) (ht : step s k = some t)
    (hk : Undisturbed s k) : Run (Guarded QueueStep Undisturbed) .new (k :: ks) t :=
  .next h ⟨ht, hk⟩

/-- A call that handles a message and commits it, while another call of the group fails on it. -/
theorem no_message_skipped_overlapping : ∃ ks t, Run (Guarded QueueStep Undisturbed) .new ks t ∧
    committed t "vaults" 0 "audit" = 1 ∧ SettledBelow t "vaults" 0 "audit" 1 := by
  have h₁ := guarded_next (.createTopic ⟨"vaults", 1, .roundRobin, 3⟩) .start rfl trivial
  have h₂ := guarded_next (publishSample "m0") h₁ rfl trivial
  have h₃ := guarded_next (.process 0 "vaults" 0 "audit" 1 3) h₂ rfl trivial
  have h₄ := guarded_next (.process 1 "vaults" 0 "audit" 1 3) h₃ rfl trivial
  have h₅ := guarded_next (.resume 1 true) h₄ rfl fun call loop hcall hprogress => by
    cases hcall
    cases hprogress
  have h₆ := guarded_next (.resume 0 true) h₅ rfl fun call loop hcall hprogress => by
    cases hcall
    cases hprogress
  have h₇ := guarded_next (.resume 1 false) h₆ rfl fun call loop hcall hprogress hrest => by
    cases hcall
    cases hprogress
    cases hrest
  have h₈ := guarded_next (.resume 0 true) h₇ rfl fun call loop hcall hprogress hrest => by
    cases hcall
    cases hprogress
    cases hrest
  have h₉ := guarded_next (.resume 0 true) h₈ rfl fun call loop hcall hprogress _ _ => by
    cases hcall
    cases hprogress
    exact ⟨rfl, rfl⟩
  exact ⟨_, _, h₉, rfl, (no_message_skipped h₉).1 "vaults" 0 "audit"⟩

/-- Two calls poll the same message. The second reads its offset after the first has
committed. -/
def skippingActions : List QueueAction :=
  sampleTopic ++ [.process 0 "vaults" 0 "audit" 1 3, .process 1 "vaults" 0 "audit" 1 3,
    .resume 1 true, .resume 1 true, .resume 1 true, .resume 0 true, .resume 0 true,
    .resume 0 true]

/-- The second call commits past a message no one has seen. -/
theorem message_skipped : ∃ ks t m, Run QueueStep .new ks t ∧
    1 < committed t "vaults" 0 "audit" ∧ (messages t "vaults" 0)[1]? = some m ∧
      ¬ Settled t "vaults" "audit" m := by
  have hplay : ∃ t, play .new skippingActions = some t ∧ 1 < committed t "vaults" 0 "audit" ∧
      ∃ m, (messages t "vaults" 0)[1]? = some m ∧ ¬ Settled t "vaults" "audit" m := by
    refine ⟨_, rfl, by decide, _, rfl, ?_⟩
    unfold Settled
    decide
  obtain ⟨t, ht, hcommitted, m, hm, hsettled⟩ := hplay
  exact ⟨_, t, m, run_of_play ht, hcommitted, hm, hsettled⟩

end Heirloom.Backend.MessageQueue
