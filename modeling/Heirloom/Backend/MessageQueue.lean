import Mathlib.Logic.Function.Basic
import Heirloom.Backend.EventSourcing

/-!
# The message queue

A partition of a topic is a list of messages, and a consumer group has an offset in it up
to which its messages are done. A call of `process` polls some messages, reads the offset,
hands the messages to its handler one by one and commits where it got to. Each of these
takes the lock of the broker for itself, so the calls of several consumers interleave.
-/

namespace Heirloom.Backend.MessageQueue

/-! ## The broker -/

structure QueueMessage where
  id : String
  topic : String
  partition : Nat
  key : Option String
  headers : List (String × String)
  payload : Value
  publishedAt : Nat
  deliveryAttempts : Nat

namespace QueueMessage

def new (topic : String) (partition : Nat) (key : Option String)
    (headers : List (String × String)) (payload : Value) (id : String) (now : Nat) :
    QueueMessage :=
  ⟨id, topic, partition, key, headers, payload, now, 0⟩

def insertHeader (msg : QueueMessage) (name value : String) : QueueMessage :=
  { msg with headers := (name, value) :: msg.headers.filter (·.1 ≠ name) }

end QueueMessage

inductive PartitionStrategy
  | roundRobin | hashKey | manual
deriving DecidableEq

/-- djb2, over `u32`. -/
def hashOf (key : String) : Nat :=
  key.toUTF8.data.toList.foldl (fun acc b => (acc * 33 + b.toNat) % 2 ^ 32) 5381

def assignPartition (strategy : PartitionStrategy) (key : Option String)
    (partitionCount roundRobinCounter : Nat) (manualPartition : Option Nat) : Nat :=
  match strategy with
  | .roundRobin => roundRobinCounter % partitionCount
  | .hashKey =>
      match key with
      | some k => hashOf k % partitionCount
      | none => roundRobinCounter % partitionCount
  | .manual => min (manualPartition.getD 0) (partitionCount - 1)

structure TopicConfig where
  name : String
  partitionCount : Nat
  strategy : PartitionStrategy
  maxRetries : Nat

/-- `panic` is no error of the code: a topic without partitions cannot be published to. -/
inductive MessageQueueError
  | topicNotFound (topic : String)
  | invalidPartition (partition : Nat) (topic : String)
  | panic
deriving DecidableEq

structure TopicStore where
  config : TopicConfig
  partitions : List (List QueueMessage)
  offsets : String × Nat → Option Nat
  roundRobinCounter : Nat
  dlq : List QueueMessage

abbrev MessageBroker := String → Option TopicStore

namespace MessageBroker

def store (broker : MessageBroker) (topic : String) : Except MessageQueueError TopicStore :=
  match broker topic with
  | some store => .ok store
  | none => .error (.topicNotFound topic)

def createTopic (broker : MessageBroker) (config : TopicConfig) : MessageBroker :=
  match broker config.name with
  | some _ => broker
  | none => Function.update broker config.name
      (some ⟨config, List.replicate config.partitionCount [], fun _ => none, 0, []⟩)

def publish (broker : MessageBroker) (topic : String) (key : Option String)
    (headers : List (String × String)) (payload : Value) (manualPartition : Option Nat)
    (id : String) (now : Nat) : Except MessageQueueError MessageBroker := do
  let store ← broker.store topic
  if store.config.partitionCount = 0 then .error .panic
  else
    let partition := assignPartition store.config.strategy key store.config.partitionCount
      store.roundRobinCounter manualPartition
    let msg := QueueMessage.new topic partition key headers payload id now
    .ok (Function.update broker topic (some { store with
      roundRobinCounter := (store.roundRobinCounter + 1) % 2 ^ 32
      partitions := store.partitions.modify partition (· ++ [msg]) }))

def poll (broker : MessageBroker) (topic : String) (partition : Nat) (consumerGroup : String)
    (maxMessages : Nat) : Except MessageQueueError (List QueueMessage) := do
  let store ← broker.store topic
  match store.partitions[partition]? with
  | none => .error (.invalidPartition partition topic)
  | some messages =>
      let offset := (store.offsets (consumerGroup, partition)).getD 0
      .ok ((messages.drop offset).take maxMessages)

/-- The offset is written as it is given. -/
def commitOffset (broker : MessageBroker) (topic : String) (partition : Nat)
    (consumerGroup : String) (offset : Nat) : Except MessageQueueError MessageBroker := do
  let store ← broker.store topic
  .ok (Function.update broker topic (some { store with
    offsets := Function.update store.offsets (consumerGroup, partition) (some offset) }))

def sendToDlq (broker : MessageBroker) (topic : String) (msg : QueueMessage) :
    Except MessageQueueError MessageBroker := do
  let store ← broker.store topic
  .ok (Function.update broker topic (some { store with
    dlq := store.dlq ++ [msg.insertHeader "dlq_reason" "max_retries_exceeded"] }))

def currentOffset (broker : MessageBroker) (topic : String) (partition : Nat)
    (consumerGroup : String) : Except MessageQueueError Nat := do
  let store ← broker.store topic
  .ok ((store.offsets (consumerGroup, partition)).getD 0)

end MessageBroker

/-! ## Calls of process -/

structure ProcessSummary where
  processed : Nat
  failed : Nat
  dlqCount : Nat
deriving DecidableEq

/-- The variables of the loop of `process`, and the messages it has still to look at. -/
structure Loop where
  startOffset : Nat
  lastGoodOffset : Nat
  i : Nat
  rest : List QueueMessage
  summary : ProcessSummary

/-- How far a call has got: it has polled; it is in the loop, or after it once no messages
are left; it is about to move a message to the dead-letter queue; it has returned. -/
inductive Progress
  | polled
  | handling (loop : Loop)
  | rejecting (msg : QueueMessage) (loop : Loop)
  | returned (result : Except MessageQueueError ProcessSummary)

/-- A call of `process`. `polledAt` is the offset its poll has read for itself. -/
structure ProcessCall where
  topic : String
  partition : Nat
  consumerGroup : String
  maxRetries : Nat
  polledAt : Nat
  msgs : List QueueMessage
  progress : Progress

/-- The message at the front is done. -/
def Loop.advance (loop : Loop) (summary : ProcessSummary) (rest : List QueueMessage) : Loop :=
  ⟨loop.startOffset, loop.startOffset + loop.i + 1, loop.i + 1, rest, summary⟩

/-- The broker, the calls by number, and what the handlers of a group have handled. -/
structure QueueState where
  broker : MessageBroker
  calls : Nat → Option ProcessCall
  handled : List (String × QueueMessage)

namespace QueueState

def new : QueueState := ⟨fun _ => none, fun _ => none, []⟩

/-- The call `c` gets on. -/
def put (s : QueueState) (c : Nat) (call : ProcessCall) (progress : Progress) : QueueState :=
  { s with calls := Function.update s.calls c (some { call with progress }) }

/-- The next message is handed to the handler, which succeeds or fails. -/
def handleNext (s : QueueState) (c : Nat) (call : ProcessCall) (loop : Loop)
    (msg : QueueMessage) (rest : List QueueMessage) (ok : Bool) : QueueState :=
  if ok then
    let summary := { loop.summary with processed := loop.summary.processed + 1 }
    { s.put c call (.handling (loop.advance summary rest)) with
      handled := s.handled ++ [(call.consumerGroup, msg)] }
  else
    let summary := { loop.summary with failed := loop.summary.failed + 1 }
    if call.maxRetries ≤ msg.deliveryAttempts then
      s.put c call (.rejecting msg { loop with summary, rest })
    else
      -- the loop is left; the message will be polled again
      s.put c call (.handling { loop with summary, rest := [] })

def reject (s : QueueState) (c : Nat) (call : ProcessCall) (loop : Loop) (msg : QueueMessage) :
    QueueState :=
  match s.broker.sendToDlq call.topic msg with
  | .error e => s.put c call (.returned (.error e))
  | .ok broker =>
      let summary := { loop.summary with dlqCount := loop.summary.dlqCount + 1 }
      { s with broker }.put c call (.handling (loop.advance summary loop.rest))

def finish (s : QueueState) (c : Nat) (call : ProcessCall) (loop : Loop) : QueueState :=
  if loop.startOffset < loop.lastGoodOffset then
    match s.broker.commitOffset call.topic call.partition call.consumerGroup
      loop.lastGoodOffset with
    | .error e => s.put c call (.returned (.error e))
    | .ok broker => { s with broker }.put c call (.returned (.ok loop.summary))
  else s.put c call (.returned (.ok loop.summary))

def readOffset (s : QueueState) (c : Nat) (call : ProcessCall) : QueueState :=
  match s.broker.currentOffset call.topic call.partition call.consumerGroup with
  | .error e => s.put c call (.returned (.error e))
  | .ok start => s.put c call (.handling ⟨start, start, 0, call.msgs, ⟨0, 0, 0⟩⟩)

/-- The next step of the call `c`; `ok` is what the handler answers if it is asked. -/
def resume (s : QueueState) (c : Nat) (call : ProcessCall) (ok : Bool) : QueueState :=
  match call.progress with
  | .polled => s.readOffset c call
  | .handling loop =>
      match loop.rest with
      | [] => s.finish c call loop
      | msg :: rest => s.handleNext c call loop msg rest ok
  | .rejecting msg loop => s.reject c call loop msg
  | .returned _ => s

end QueueState

/-- What happens at the broker: a topic is created, a message is published, a call of
`process` with a number of its own polls, or a call takes its next step. -/
inductive QueueAction
  | createTopic (config : TopicConfig)
  | publish (topic : String) (key : Option String) (headers : List (String × String))
      (payload : Value) (manualPartition : Option Nat) (id : String) (now : Nat)
  | process (c : Nat) (topic : String) (partition : Nat) (consumerGroup : String)
      (maxMessages maxRetries : Nat)
  | resume (c : Nat) (ok : Bool)

/-- The committed offset of a group. -/
def committed (s : QueueState) (topic : String) (partition : Nat) (consumerGroup : String) : Nat :=
  match s.broker topic with
  | some store => (store.offsets (consumerGroup, partition)).getD 0
  | none => 0

/-- The step of an action, if it can be taken. What returns an error changes nothing. A publish
that panics poisons the lock, so that no operation after it succeeds: a run ends before it. -/
def step (s : QueueState) : QueueAction → Option QueueState
  | .createTopic config => some { s with broker := s.broker.createTopic config }
  | .publish topic key headers payload manualPartition id now =>
      match s.broker.publish topic key headers payload manualPartition id now with
      | .ok broker => some { s with broker }
      | .error .panic => none
      | .error _ => some s
  | .process c topic partition consumerGroup maxMessages maxRetries =>
      match s.calls c with
      | some _ => none
      | none =>
          match s.broker.poll topic partition consumerGroup maxMessages with
          | .error _ => some s
          | .ok msgs => some (s.put c ⟨topic, partition, consumerGroup, maxRetries,
              committed s topic partition consumerGroup, msgs, .polled⟩ .polled)
  | .resume c ok => (s.calls c).map fun call => s.resume c call ok

def QueueStep (s : QueueState) (k : QueueAction) (t : QueueState) : Prop := step s k = some t

end Heirloom.Backend.MessageQueue
