import Heirloom.Backend.Offsets

/-!
# Poison messages

A call of `process` that no other consumer disturbs runs from its poll to its commit in one
piece. It stops at the first message that fails and has been delivered less often than the
call allows, and leaves it to the next call. The deliveries are not counted, however: a
message is published with none, and nothing ever adds to them.

Results:
1. `process_alone`: a call that runs alone does the same step by step.
2. `blocked`: a message that always fails keeps a call that allows it one delivery or more,
   and all calls after it, from doing anything.
3. `poison_message_iff`: the calls of a sole consumer finish the messages of its partition in
   their order, each once; a message that always fails is dead-lettered after as many calls
   as it may be delivered exactly if it may be delivered only once.
4. `poison_message_stays`: a message that is still at the front after four calls that allow
   it three deliveries.
-/

namespace Heirloom.Backend.MessageQueue

open Runs

/-! ## Calls in one piece -/

variable {σ : Type}

/-- A handler may keep a state. -/
abbrev Handler (σ : Type) := σ → QueueMessage → Except String Unit × σ

/-- The broker, the state of the handler, and the messages that are finished: handled, or
moved to the dead-letter queue. -/
structure Consumption (σ : Type) where
  broker : MessageBroker
  handlerState : σ
  finished : List QueueMessage

/-- The loop of `process`. -/
def handleMessages (topic : String) (maxRetries : Nat) (handler : Handler σ) :
    List QueueMessage → Loop → Consumption σ → Except MessageQueueError Loop × Consumption σ
  | [], loop, w => (.ok loop, w)
  | msg :: rest, loop, w =>
      match handler w.handlerState msg with
      | (.ok (), handlerState) =>
          let summary := { loop.summary with processed := loop.summary.processed + 1 }
          handleMessages topic maxRetries handler rest (loop.advance summary rest)
            { w with handlerState, finished := w.finished ++ [msg] }
      | (.error _, handlerState) =>
          let summary := { loop.summary with failed := loop.summary.failed + 1 }
          if maxRetries ≤ msg.deliveryAttempts then
            match w.broker.sendToDlq topic msg with
            | .error e => (.error e, { w with handlerState })
            | .ok broker =>
                let summary := { summary with dlqCount := summary.dlqCount + 1 }
                handleMessages topic maxRetries handler rest (loop.advance summary rest)
                  ⟨broker, handlerState, w.finished ++ [msg]⟩
          else (.ok { loop with summary, rest := [] }, { w with handlerState })

def process (topic : String) (partition : Nat) (consumerGroup : String)
    (maxMessages maxRetries : Nat) (handler : Handler σ) (w : Consumption σ) :
    Except MessageQueueError ProcessSummary × Consumption σ :=
  match w.broker.poll topic partition consumerGroup maxMessages with
  | .error e => (.error e, w)
  | .ok msgs =>
      match w.broker.currentOffset topic partition consumerGroup with
      | .error e => (.error e, w)
      | .ok start =>
          match handleMessages topic maxRetries handler msgs
            ⟨start, start, 0, msgs, ⟨0, 0, 0⟩⟩ w with
          | (.error e, w) => (.error e, w)
          | (.ok loop, w) =>
              if loop.startOffset < loop.lastGoodOffset then
                match w.broker.commitOffset topic partition consumerGroup
                  loop.lastGoodOffset with
                | .error e => (.error e, w)
                | .ok broker => (.ok loop.summary, { w with broker })
              else (.ok loop.summary, w)

/-- The state of the queue with no calls. -/
def MessageBroker.queue (broker : MessageBroker) : QueueState := ⟨broker, fun _ => none, []⟩

/-- What happens around a sole consumer: it makes a call, or something is created or
published. -/
inductive Turn
  | createTopic (config : TopicConfig)
  | publish (topic : String) (key : Option String) (headers : List (String × String))
      (payload : Value) (manualPartition : Option Nat) (id : String) (now : Nat)
  | process (maxMessages maxRetries : Nat)

/-- The sole consumer of a partition. -/
structure Consumer (σ : Type) where
  topic : String
  partition : Nat
  consumerGroup : String
  handler : Handler σ

/-- The messages of its partition. -/
def Consumer.messages (consumer : Consumer σ) (w : Consumption σ) : List QueueMessage :=
  MessageQueue.messages w.broker.queue consumer.topic consumer.partition

/-- The committed offset of its group. -/
def Consumer.offset (consumer : Consumer σ) (w : Consumption σ) : Nat :=
  committed w.broker.queue consumer.topic consumer.partition consumer.consumerGroup

def Consumer.process (consumer : Consumer σ) (maxMessages maxRetries : Nat)
    (w : Consumption σ) : Except MessageQueueError ProcessSummary × Consumption σ :=
  MessageQueue.process consumer.topic consumer.partition consumer.consumerGroup maxMessages
    maxRetries consumer.handler w

def Consumer.turn (consumer : Consumer σ) (w : Consumption σ) : Turn → Consumption σ
  | .createTopic config => { w with broker := w.broker.createTopic config }
  | .publish topic key headers payload manualPartition id now =>
      match w.broker.publish topic key headers payload manualPartition id now with
      | .ok broker => { w with broker }
      | .error _ => w
  | .process maxMessages maxRetries => (consumer.process maxMessages maxRetries w).2

def Consumer.turns (consumer : Consumer σ) (w : Consumption σ) (turns : List Turn) :
    Consumption σ :=
  turns.foldl consumer.turn w

/-! ## The loop -/

section HandleMessages

variable {topic group : String} {partition maxRetries maxMessages : Nat} {handler : Handler σ}
  {broker broker' broker'' : MessageBroker} {store : TopicStore} {m : QueueMessage}

theorem store_of_some (h : broker topic = some store) : broker.store topic = .ok store := by
  unfold MessageBroker.store
  rw [h]

theorem sendToDlq_ok (h : broker topic = some store) :
    broker.sendToDlq topic m = .ok (Function.update broker topic (some { store with
      dlq := store.dlq ++ [m.insertHeader "dlq_reason" "max_retries_exceeded"] })) := by
  unfold MessageBroker.sendToDlq
  rw [store_of_some h]
  rfl

theorem commitOffset_ok (partition : Nat) (group : String) (offset : Nat)
    (h : broker topic = some store) :
    broker.commitOffset topic partition group offset =
      .ok (Function.update broker topic (some { store with
        offsets := Function.update store.offsets (group, partition) (some offset) })) := by
  unfold MessageBroker.commitOffset
  rw [store_of_some h]
  rfl

/-- The broker keeps the topic and the offsets, and loses nothing. -/
structure Keeps (topic : String) (broker broker' : MessageBroker) : Prop where
  store : ∃ store, broker' topic = some store
  grows : Grows broker.queue broker'.queue
  same : ∀ topic partition group,
    committed broker'.queue topic partition group = committed broker.queue topic partition group

theorem Grows.trans {s t u : QueueState} (h : Grows s t) (h' : Grows t u) : Grows s u :=
  ⟨fun topic partition => (h.messages topic partition).trans (h'.messages topic partition),
    fun x hx => h'.handled x (h.handled x hx), fun topic d hd => h'.dlq topic d (h.dlq topic d hd)⟩

theorem Keeps.rfl (h : broker topic = some store) : Keeps topic broker broker :=
  ⟨⟨store, h⟩, .rfl, fun _ _ _ => .refl _⟩

theorem Keeps.trans (h : Keeps topic broker broker') (h' : Keeps topic broker' broker'') :
    Keeps topic broker broker'' :=
  ⟨h'.store, h.grows.trans h'.grows, fun t p g => (h'.same t p g).trans (h.same t p g)⟩

theorem keeps_sendToDlq (hstore : broker topic = some store) :
    Keeps topic broker (Function.update broker topic (some { store with
      dlq := store.dlq ++ [m.insertHeader "dlq_reason" "max_retries_exceeded"] })) := by
  obtain ⟨hgrows, -, hsame⟩ := sendToDlq_grows (s := broker.queue) (sendToDlq_ok (m := m) hstore)
  exact ⟨⟨_, Function.update_self topic _ _⟩, hgrows, hsame⟩

/-- The loop finishes a number of messages from the front. -/
theorem handleMessages_finishes (topic : String) (maxRetries : Nat) (handler : Handler σ)
    (msgs : List QueueMessage) (loop : Loop) (w : Consumption σ)
    (hstore : ∃ store, w.broker topic = some store)
    (hloop : loop.lastGoodOffset = loop.startOffset + loop.i) :
    ∃ (loop' : Loop) (w' : Consumption σ) (n : Nat),
      handleMessages topic maxRetries handler msgs loop w = (.ok loop', w') ∧
      Keeps topic w.broker w'.broker ∧ loop'.startOffset = loop.startOffset ∧
      n ≤ msgs.length ∧ loop'.lastGoodOffset = loop.lastGoodOffset + n ∧
      w'.finished = w.finished ++ msgs.take n := by
  induction msgs generalizing loop w with
  | nil =>
      obtain ⟨store, hstore⟩ := hstore
      exact ⟨loop, w, 0, rfl, .rfl hstore, rfl, Nat.le_refl _, rfl, by simp⟩
  | cons msg rest ih =>
      -- A message that is finished leaves the rest to the induction hypothesis.
      have hnext (broker : MessageBroker) (handlerState : σ) (summary : ProcessSummary)
          (hkeeps : Keeps topic w.broker broker) :
          ∃ (loop' : Loop) (w' : Consumption σ) (n : Nat),
            handleMessages topic maxRetries handler rest (loop.advance summary rest)
              ⟨broker, handlerState, w.finished ++ [msg]⟩ = (.ok loop', w') ∧
            Keeps topic w.broker w'.broker ∧ loop'.startOffset = loop.startOffset ∧
            n ≤ (msg :: rest).length ∧ loop'.lastGoodOffset = loop.lastGoodOffset + n ∧
            w'.finished = w.finished ++ (msg :: rest).take n := by
        obtain ⟨loop', w', n, hrun, hkeeps', hstart, hn, hlast, hfinished⟩ :=
          ih (loop.advance summary rest) ⟨broker, handlerState, w.finished ++ [msg]⟩ hkeeps.store
            rfl
        refine ⟨loop', w', n + 1, hrun, hkeeps.trans hkeeps', hstart, Nat.succ_le_succ hn, ?_,
          by simp [hfinished]⟩
        rw [hlast, hloop]
        show loop.startOffset + loop.i + 1 + n = _
        rw [Nat.add_assoc, Nat.add_comm 1]
      obtain ⟨store, hstore⟩ := hstore
      unfold handleMessages
      rcases handler w.handlerState msg with ⟨err | _, handlerState⟩
      · dsimp only
        split
        · rw [sendToDlq_ok hstore]
          exact hnext _ handlerState _ (keeps_sendToDlq hstore)
        · exact ⟨_, _, 0, rfl, .rfl hstore, rfl, Nat.zero_le _, rfl, by simp⟩
      · exact hnext w.broker handlerState _ (.rfl hstore)

/-- Messages that are all handled leave the broker as it is. -/
theorem handleMessages_succeeds (topic : String) (maxRetries : Nat) {handler : Handler σ}
    (msgs : List QueueMessage) (loop : Loop) (w : Consumption σ)
    (hloop : loop.lastGoodOffset = loop.startOffset + loop.i)
    (hhandled : ∀ x ∈ msgs, ∀ st, (handler st x).1 = .ok ()) :
    ∃ (loop' : Loop) (w' : Consumption σ),
      handleMessages topic maxRetries handler msgs loop w = (.ok loop', w') ∧
      w'.broker = w.broker ∧ loop'.startOffset = loop.startOffset ∧
      loop'.lastGoodOffset = loop.lastGoodOffset + msgs.length := by
  induction msgs generalizing loop w with
  | nil => exact ⟨loop, w, rfl, rfl, rfl, rfl⟩
  | cons msg rest ih =>
      have hok := hhandled msg List.mem_cons_self w.handlerState
      rcases hresult : handler w.handlerState msg with ⟨result, handlerState⟩
      obtain rfl : result = .ok () := by simpa [hresult] using hok
      obtain ⟨loop', w', hrun, hbroker, hstart, hlast⟩ := ih
        (loop.advance { loop.summary with processed := loop.summary.processed + 1 } rest)
        { w with handlerState, finished := w.finished ++ [msg] } rfl
        fun x hx => hhandled x (List.mem_cons_of_mem _ hx)
      refine ⟨loop', w', ?_, hbroker, hstart, ?_⟩
      · unfold handleMessages
        rw [hresult]
        exact hrun
      · rw [hlast, hloop]
        show loop.startOffset + loop.i + 1 + rest.length = _
        rw [List.length_cons, Nat.add_assoc, Nat.add_comm 1]

end HandleMessages

/-! ## Whole calls -/

section Process

variable {topic group : String} {partition maxRetries maxMessages : Nat} {handler : Handler σ}
  {w w' w'' : Consumption σ} {m : QueueMessage} {msgs : List QueueMessage}
  {consumer : Consumer σ}

/-- What the consumer finishes from one state to another follows in the partition on the
offset of its group, which counts it. -/
structure InOrder (consumer : Consumer σ) (w w' : Consumption σ) : Prop where
  kept : consumer.messages w <+: consumer.messages w'
  finishes : ∃ done, w'.finished = w.finished ++ done ∧
    done <+: (consumer.messages w').drop (consumer.offset w) ∧
    consumer.offset w' = consumer.offset w + done.length

theorem InOrder.of_same (hkept : consumer.messages w <+: consumer.messages w')
    (hoffset : consumer.offset w' = consumer.offset w) (hfinished : w'.finished = w.finished) :
    InOrder consumer w w' :=
  ⟨hkept, [], by simp [hfinished], List.nil_prefix, hoffset⟩

theorem InOrder.refl : InOrder consumer w w := .of_same List.prefix_rfl rfl rfl

theorem prefix_drop {α : Type} {xs ys : List α} (h : xs <+: ys) (n : Nat) :
    xs.drop n <+: ys.drop n := by
  obtain ⟨zs, rfl⟩ := h
  rw [List.drop_append]
  exact List.prefix_append _ _

theorem InOrder.trans (h : InOrder consumer w w') (h' : InOrder consumer w' w'') :
    InOrder consumer w w'' := by
  obtain ⟨hkept, done, hfinished, hdone, hoffset⟩ := h
  obtain ⟨hkept', done', hfinished', hdone', hoffset'⟩ := h'
  refine ⟨hkept.trans hkept', done ++ done', by rw [hfinished', hfinished, List.append_assoc], ?_,
    by rw [hoffset', hoffset, List.length_append, Nat.add_assoc]⟩
  -- What is finished first is still there in the end, and the rest follows on it.
  obtain ⟨rest, hrest⟩ := hdone.trans (prefix_drop hkept' _)
  rw [hoffset, ← List.drop_drop, ← hrest, List.drop_left] at hdone'
  rw [← hrest]
  exact (List.prefix_append_right_inj done).mpr hdone'

theorem poll_store (h : w.broker.poll topic partition group maxMessages = .ok msgs) :
    ∃ store, w.broker topic = some store := by
  unfold MessageBroker.poll at h
  cases hstore : w.broker.store topic with
  | error e => simp [hstore, bind, Except.bind] at h
  | ok store => exact ⟨store, store_ok (s := w.broker.queue) hstore⟩

theorem process_inOrder (maxMessages maxRetries : Nat) (w : Consumption σ) :
    InOrder consumer w (consumer.process maxMessages maxRetries w).2 := by
  unfold Consumer.process process
  rcases hpoll : w.broker.poll consumer.topic consumer.partition consumer.consumerGroup
      maxMessages with e | msgs
  · exact .refl
  rcases hread : w.broker.currentOffset consumer.topic consumer.partition
      consumer.consumerGroup with e | start
  · exact .refl
  have hstart : start = consumer.offset w := currentOffset_ok (s := w.broker.queue) hread
  obtain ⟨loop, w', n, hrun, hkeeps, hloop, hn, hlast, hfinished⟩ :=
    handleMessages_finishes consumer.topic maxRetries consumer.handler msgs
      ⟨start, start, 0, msgs, ⟨0, 0, 0⟩⟩ w (poll_store hpoll) rfl
  simp only [hrun]
  have hkept := hkeeps.grows.messages consumer.topic consumer.partition
  have hmsgs : msgs <+: (consumer.messages w).drop (consumer.offset w) := by
    rw [poll_ok (s := w.broker.queue) hpoll]
    exact List.take_prefix _ _
  have hdone : msgs.take n <+: (consumer.messages w').drop (consumer.offset w) :=
    (List.take_prefix n msgs).trans (hmsgs.trans (prefix_drop hkept _))
  split
  · obtain ⟨store, hstore⟩ := hkeeps.store
    have hcommit := commitOffset_ok consumer.partition consumer.consumerGroup
      loop.lastGoodOffset hstore
    obtain ⟨hgrows, hcommitted, -⟩ := commitOffset_grows (s := w'.broker.queue) hcommit
    rw [hcommit]
    refine ⟨hkept.trans (hgrows.messages _ _), msgs.take n, hfinished,
      hdone.trans (prefix_drop (hgrows.messages _ _) _), ?_⟩
    rw [List.length_take_of_le hn, ← hstart]
    exact hcommitted.trans hlast
  · next hle =>
    have hzero : n = 0 := by
      rw [hlast, hloop] at hle
      simpa using hle
    refine .of_same hkept (hkeeps.same _ _ _) ?_
    rw [hfinished, hzero, List.take_zero, List.append_nil]

theorem turn_inOrder (k : Turn) (w : Consumption σ) : InOrder consumer w (consumer.turn w k) := by
  cases k with
  | createTopic config =>
      obtain ⟨hgrows, hsame⟩ := createTopic_grows (s := w.broker.queue) config
      exact .of_same (hgrows.messages _ _) (hsame _ _ _) rfl
  | publish topic key headers payload manualPartition id now =>
      rcases hpublish : w.broker.publish topic key headers payload manualPartition id now with
        e | broker
      · simp only [Consumer.turn, hpublish]
        exact .refl
      · simp only [Consumer.turn, hpublish]
        obtain ⟨hgrows, hsame⟩ := publish_grows (s := w.broker.queue) hpublish
        exact .of_same (hgrows.messages _ _) (hsame _ _ _) rfl
  | process maxMessages maxRetries => exact process_inOrder maxMessages maxRetries w

theorem turns_inOrder (ks : List Turn) (w : Consumption σ) :
    InOrder consumer w (consumer.turns w ks) := by
  induction ks generalizing w with
  | nil => exact .refl
  | cons k ks ih => exact (turn_inOrder k w).trans (ih (consumer.turn w k))

end Process

/-! ## Calls that run alone -/

section Alone

variable {c maxRetries maxMessages partition : Nat} {topic group : String}
  {handler : Handler σ} {s t : QueueState} {call : ProcessCall} {progress : Progress}

/-- The call `c` gets from `s` to `t` on its own, and is then at `progress`. -/
def Alone (c : Nat) (call : ProcessCall) (s : QueueState) (progress : Progress)
    (t : QueueState) : Prop :=
  ∃ ks, Run QueueStep s ks t ∧ t.calls c = some { call with progress } ∧
    ∀ k ∈ ks, ∃ ok, k = .resume c ok

theorem alone_next {progress' : Progress} (ok : Bool) {u : QueueState}
    (hcall : s.calls c = some { call with progress })
    (ht : s.resume c { call with progress } ok = t) (h : Alone c call t progress' u) :
    Alone c call s progress' u := by
  obtain ⟨ks, hrun, hc, hks⟩ := h
  have hstep : QueueStep s (.resume c ok) t := by
    show (s.calls c).map _ = some t
    rw [hcall, Option.map_some, ht]
  refine ⟨ks ++ [.resume c ok], Run.trans (.next .start hstep) hrun, hc, fun k hk => ?_⟩
  rcases List.mem_append.mp hk with hk | hk
  · exact hks k hk
  · exact ⟨ok, List.mem_singleton.mp hk⟩

theorem alone_rfl (hcall : s.calls c = some { call with progress }) :
    Alone c call s progress s :=
  ⟨[], .start, hcall, fun k hk => by cases hk⟩

theorem Alone.resume {progress' : Progress} {u : QueueState} (ok : Bool)
    (h : Alone c call s progress t) (hu : t.resume c { call with progress } ok = u)
    (hc : u.calls c = some { call with progress := progress' }) :
    Alone c call s progress' u := by
  obtain ⟨ks, hrun, hcall, hks⟩ := h
  have hstep : QueueStep t (.resume c ok) u := by
    show (t.calls c).map _ = some u
    rw [hcall, Option.map_some, hu]
  refine ⟨_, .next hrun hstep, hc, fun k hk => ?_⟩
  rcases List.mem_cons.mp hk with rfl | hk
  · exact ⟨ok, rfl⟩
  · exact hks k hk

theorem put_calls (call : ProcessCall) (progress : Progress) :
    (s.put c call progress).calls c = some { call with progress } :=
  Function.update_self c _ _

/-- Where a call is when its loop has returned. -/
def loopEnd : Except MessageQueueError Loop → Progress
  | .error e => .returned (.error e)
  | .ok loop => .handling loop

theorem handleMessages_alone (handler : Handler σ) (call : ProcessCall)
    (msgs : List QueueMessage) (loop : Loop) (w : Consumption σ) (hbroker : s.broker = w.broker)
    (hrest : loop.rest = msgs)
    (hcall : s.calls c = some { call with progress := .handling loop }) :
    ∃ t, t.broker =
        (handleMessages call.topic call.maxRetries handler msgs loop w).2.broker ∧
      (∀ loop', (handleMessages call.topic call.maxRetries handler msgs loop w).1 = .ok loop' →
        loop'.rest = []) ∧
      Alone c call s
        (loopEnd (handleMessages call.topic call.maxRetries handler msgs loop w).1) t := by
  induction msgs generalizing loop w s with
  | nil =>
      refine ⟨s, hbroker, fun loop' h => ?_, alone_rfl hcall⟩
      cases h
      exact hrest
  | cons msg rest ih =>
      unfold handleMessages
      rcases handler w.handlerState msg with ⟨err | _, handlerState⟩
      · let summary := { loop.summary with failed := loop.summary.failed + 1 }
        let handling := { call with progress := .handling loop }
        have hfirst : s.resume c handling false = s.handleNext c handling loop msg rest false := by
          simp only [QueueState.resume, handling, hrest]
        dsimp only
        split
        · next hle =>
          -- the message is to be dead-lettered
          let rejecting := Progress.rejecting msg { loop with summary, rest }
          have hrejecting : s.resume c handling false = s.put c call rejecting := by
            rw [hfirst]
            exact if_pos hle
          rcases hsend : w.broker.sendToDlq call.topic msg with e | broker
          · refine ⟨(s.put c call rejecting).put c call (.returned (.error e)), hbroker,
              fun _ h => (by cases h), alone_next false hcall hrejecting (alone_next false
                (put_calls call rejecting) ?_ (alone_rfl (put_calls call _)))⟩
            show QueueState.reject _ _ _ _ _ = _
            unfold QueueState.reject
            rw [show (s.put c call rejecting).broker = w.broker from hbroker, hsend]
            rfl
          · let u : QueueState := { s.put c call rejecting with broker }
            obtain ⟨t, ht, hend, halone⟩ := ih
              (s := u.put c call (.handling (loop.advance
                { summary with dlqCount := summary.dlqCount + 1 } rest)))
              (loop.advance { summary with dlqCount := summary.dlqCount + 1 } rest)
              ⟨broker, handlerState, w.finished ++ [msg]⟩ rfl rfl (put_calls call _)
            refine ⟨t, ht, hend, alone_next false hcall hrejecting (alone_next false
              (put_calls call rejecting) ?_ halone)⟩
            show QueueState.reject _ _ _ _ _ = _
            unfold QueueState.reject
            rw [show (s.put c call rejecting).broker = w.broker from hbroker, hsend]
            rfl
        · next hlt =>
          refine ⟨s.put c call (.handling { loop with summary, rest := [] }), hbroker,
            fun loop' h => ?_, alone_next false hcall ?_ (alone_rfl (put_calls call _))⟩
          · cases h
            rfl
          · rw [hfirst]
            exact if_neg hlt
      · let summary := { loop.summary with processed := loop.summary.processed + 1 }
        obtain ⟨t, ht, hend, halone⟩ := ih
          (s := s.handleNext c { call with progress := .handling loop } loop msg rest true)
          (loop.advance summary rest) { w with handlerState, finished := w.finished ++ [msg] }
          hbroker rfl (put_calls { call with progress := .handling loop } _)
        refine ⟨t, ht, hend, alone_next true hcall ?_ halone⟩
        simp only [QueueState.resume, hrest]

/-- A call that polls and then runs alone does step by step what it does in one piece. -/
theorem process_alone {msgs : List QueueMessage} (w : Consumption σ) (hbroker : s.broker = w.broker)
    (hfresh : s.calls c = none)
    (hpoll : w.broker.poll topic partition group maxMessages = .ok msgs) :
    ∃ (ks : List QueueAction) (t : QueueState) (call : ProcessCall), Run QueueStep s ks t ∧
      (∀ k ∈ ks, k = .process c topic partition group maxMessages maxRetries ∨
        ∃ ok, k = .resume c ok) ∧
      t.broker = (process topic partition group maxMessages maxRetries handler w).2.broker ∧
      t.calls c = some call ∧ call.progress =
        .returned (process topic partition group maxMessages maxRetries handler w).1 := by
  let call : ProcessCall :=
    ⟨topic, partition, group, maxRetries, committed s topic partition group, msgs, .polled⟩
  -- It is enough that the call gets from its poll to the end.
  suffices halone : ∃ t, t.broker =
      (process topic partition group maxMessages maxRetries handler w).2.broker ∧
      Alone c call (s.put c call .polled)
        (.returned (process topic partition group maxMessages maxRetries handler w).1) t by
    obtain ⟨t, ht, ks, hrun, hc, hks⟩ := halone
    have hfirst : QueueStep s (.process c topic partition group maxMessages maxRetries)
        (s.put c call .polled) := by
      unfold QueueStep step
      simp only [hfresh, hbroker, hpoll, call]
    refine ⟨ks ++ [_], t, _, Run.trans (.next .start hfirst) hrun, fun k hk => ?_, ht, hc, rfl⟩
    rcases List.mem_append.mp hk with hk | hk
    · exact .inr (hks k hk)
    · exact .inl (List.mem_singleton.mp hk)
  have hpolled : (s.put c call .polled).broker = w.broker := hbroker
  have hresume : (s.put c call .polled).resume c call false =
      (s.put c call .polled).readOffset c call := rfl
  unfold process
  rw [hpoll]
  rcases hread : w.broker.currentOffset topic partition group with e | start
  · have hreturn : (s.put c call .polled).resume c call false =
        (s.put c call .polled).put c call (.returned (.error e)) := by
      rw [hresume]
      unfold QueueState.readOffset
      rw [hpolled, hread]
    exact ⟨(s.put c call .polled).put c call _, hbroker, alone_next false (put_calls call _) hreturn
      (alone_rfl (put_calls call _))⟩
  · let loop : Loop := ⟨start, start, 0, msgs, ⟨0, 0, 0⟩⟩
    have hhandling : (s.put c call .polled).resume c call false =
        (s.put c call .polled).put c call (.handling loop) := by
      rw [hresume]
      unfold QueueState.readOffset
      rw [hpolled, hread]
    obtain ⟨t, ht, hend, halone⟩ := handleMessages_alone handler call msgs loop w
      (s := (s.put c call .polled).put c call (.handling loop)) hpolled rfl (put_calls call _)
    have halone' := alone_next false (put_calls call .polled) hhandling halone
    rcases hresult : handleMessages topic maxRetries handler msgs loop w with ⟨e | loop', w'⟩
    · rw [show handleMessages call.topic call.maxRetries handler msgs loop w = (.error e, w') from
        hresult] at ht halone'
      simp only [loop] at hresult
      simp only [hresult]
      exact ⟨t, ht, halone'⟩
    · rw [show handleMessages call.topic call.maxRetries handler msgs loop w = (.ok loop', w') from
        hresult] at ht halone' hend
      simp only [loop] at hresult
      simp only [hresult]
      have hfinish : t.resume c { call with progress := .handling loop' } false =
          t.finish c { call with progress := .handling loop' } loop' := by
        simp only [QueueState.resume, hend loop' rfl]
      split
      · next hlt =>
        rcases hcommit : w'.broker.commitOffset topic partition group loop'.lastGoodOffset with
          e | broker
        · have hreturn : t.resume c { call with progress := .handling loop' } false =
              t.put c call (.returned (.error e)) := by
            rw [hfinish]
            unfold QueueState.finish
            rw [if_pos hlt, ht]
            simp only [call, hcommit]
            rfl
          exact ⟨t.put c call _, ht, halone'.resume false hreturn (put_calls call _)⟩
        · have hreturn : t.resume c { call with progress := .handling loop' } false =
              { t with broker }.put c call (.returned (.ok loop'.summary)) := by
            rw [hfinish]
            unfold QueueState.finish
            rw [if_pos hlt, ht]
            simp only [call, hcommit]
            rfl
          exact ⟨_, rfl, halone'.resume false hreturn (put_calls call _)⟩
      · next hle =>
        have hreturn : t.resume c { call with progress := .handling loop' } false =
            t.put c call (.returned (.ok loop'.summary)) := by
          rw [hfinish]
          unfold QueueState.finish
          rw [if_neg hle]
          rfl
        exact ⟨t.put c call _, ht, halone'.resume false hreturn (put_calls call _)⟩

end Alone

/-! ## A message that always fails -/

section Poison

variable {consumer : Consumer σ} {w : Consumption σ} {m : QueueMessage}

/-- What the dead-letter queue keeps of a message. -/
def QueueMessage.rejected (m : QueueMessage) : QueueMessage :=
  m.insertHeader "dlq_reason" "max_retries_exceeded"

/-- The message at the offset of the consumer is the only one of its partition that its
handler fails on, and it always does. -/
structure Poison (consumer : Consumer σ) (w : Consumption σ) (m : QueueMessage) : Prop where
  next : (consumer.messages w)[consumer.offset w]? = some m
  fails : ∀ st, ∃ err, (consumer.handler st m).1 = .error err
  others : ∀ (p : Nat) x, (consumer.messages w)[p]? = some x → p ≠ consumer.offset w →
    ∀ st, (consumer.handler st x).1 = .ok ()

/-- A call of a consumer whose partition has a message at its offset. -/
theorem process_of_next (maxMessages : Nat)
    (h : (consumer.messages w)[consumer.offset w]? = some m) :
    ∃ store, w.broker consumer.topic = some store ∧
      w.broker.poll consumer.topic consumer.partition consumer.consumerGroup maxMessages =
        .ok (((consumer.messages w).drop (consumer.offset w)).take maxMessages) ∧
      w.broker.currentOffset consumer.topic consumer.partition consumer.consumerGroup =
        .ok (consumer.offset w) := by
  unfold Consumer.messages messages at h
  unfold Consumer.offset Consumer.messages messages committed MessageBroker.poll
    MessageBroker.currentOffset MessageBroker.store
  cases hstore : w.broker consumer.topic with
  | none => simp [MessageBroker.queue, hstore] at h
  | some store =>
      cases hmessages : store.partitions[consumer.partition]? with
      | none => simp [MessageBroker.queue, hstore, hmessages] at h
      | some msgs =>
          simp [MessageBroker.queue, hstore, hmessages, bind, Except.bind]

theorem Poison.pending (h : Poison consumer w m) :
    (consumer.messages w).drop (consumer.offset w) =
      m :: (consumer.messages w).drop (consumer.offset w + 1) := by
  obtain ⟨hlt, rfl⟩ := List.getElem?_eq_some_iff.mp h.next
  exact List.drop_eq_getElem_cons hlt

theorem Poison.handled (h : Poison consumer w m) (n : Nat) :
    ∀ x ∈ ((consumer.messages w).drop (consumer.offset w + 1)).take n,
      ∀ st, (consumer.handler st x).1 = .ok () := by
  intro x hx
  obtain ⟨j, hj⟩ := List.mem_iff_getElem?.mp (List.mem_of_mem_take hx)
  rw [List.getElem?_drop] at hj
  exact h.others _ x hj (by omega)

/-- A call that would have to deliver the message again does nothing. -/
theorem process_blocked {maxRetries : Nat} (maxMessages : Nat) (h : Poison consumer w m)
    (hlt : m.deliveryAttempts < maxRetries) :
    (consumer.process maxMessages maxRetries w).2.broker = w.broker ∧
      (consumer.process maxMessages maxRetries w).2.finished = w.finished := by
  obtain ⟨store, -, hpoll, hread⟩ := process_of_next maxMessages h.next
  obtain ⟨err, herror⟩ := h.fails w.handlerState
  rcases hresult : consumer.handler w.handlerState m with ⟨result, handlerState⟩
  obtain rfl : result = .error err := by simpa [hresult] using herror
  unfold Consumer.process process
  rw [hpoll, hread, h.pending]
  cases maxMessages with
  | zero => simp [handleMessages]
  | succ n =>
      simp only [List.take_succ_cons, handleMessages, hresult, if_neg (Nat.not_le.mpr hlt)]
      simp

/-- A call that need not deliver the message again dead-letters it and gets past it. -/
theorem process_deadLetters {maxMessages maxRetries : Nat} (h : Poison consumer w m)
    (hle : maxRetries ≤ m.deliveryAttempts) (hpos : 0 < maxMessages) :
    dlq (consumer.process maxMessages maxRetries w).2.broker.queue consumer.topic =
        dlq w.broker.queue consumer.topic ++ [m.rejected] ∧
      consumer.offset w < consumer.offset (consumer.process maxMessages maxRetries w).2 := by
  obtain ⟨store, hstore, hpoll, hread⟩ := process_of_next maxMessages h.next
  obtain ⟨err, herror⟩ := h.fails w.handlerState
  rcases hresult : consumer.handler w.handlerState m with ⟨result, handlerState⟩
  obtain rfl : result = .error err := by simpa [hresult] using herror
  obtain ⟨n, rfl⟩ := Nat.exists_eq_add_one_of_ne_zero hpos.ne'
  obtain ⟨broker, hrejected, hsend⟩ : ∃ broker : MessageBroker,
      broker consumer.topic = some { store with dlq := store.dlq ++ [m.rejected] } ∧
        w.broker.sendToDlq consumer.topic m = .ok broker :=
    ⟨_, Function.update_self consumer.topic _ _, sendToDlq_ok hstore⟩
  let rest := ((consumer.messages w).drop (consumer.offset w + 1)).take n
  obtain ⟨loop, w', hrun, rfl, hstart, hlast⟩ := handleMessages_succeeds consumer.topic
    maxRetries rest ((⟨consumer.offset w, consumer.offset w, 0, m :: rest, ⟨0, 0, 0⟩⟩ :
      Loop).advance ⟨0, 1, 1⟩ rest)
    ⟨broker, handlerState, w.finished ++ [m]⟩ rfl (h.handled n)
  have hgoes : consumer.offset w < loop.lastGoodOffset := by
    rw [hlast]
    show consumer.offset w < consumer.offset w + 0 + 1 + rest.length
    omega
  have hcommit := commitOffset_ok consumer.partition consumer.consumerGroup loop.lastGoodOffset
    hrejected
  have hprocess : (consumer.process (n + 1) maxRetries w).2 = { w' with
      broker := Function.update w'.broker consumer.topic (some { store with
        dlq := store.dlq ++ [m.rejected]
        offsets := Function.update store.offsets (consumer.consumerGroup, consumer.partition)
          (some loop.lastGoodOffset) }) } := by
    unfold Consumer.process process
    rw [hpoll, hread, h.pending]
    simp only [List.take_succ_cons, handleMessages, hresult, if_pos hle, hsend]
    rw [hrun]
    show (if loop.startOffset < loop.lastGoodOffset then _ else _ : Except _ _ × _).2 = _
    rw [if_pos (hstart ▸ hgoes), hcommit]
  constructor
  · rw [hprocess]
    simp [dlq, MessageBroker.queue, hstore]
  · rw [hprocess]
    simpa [Consumer.offset, committed, MessageBroker.queue] using hgoes

end Poison

/-! ## Messages as they are published -/

section Published

variable {topic : String} {s t : QueueState} {history : List QueueAction} {k : QueueAction}

/-- No stored message has been counted as delivered. -/
def Uncounted (broker : MessageBroker) : Prop :=
  ∀ topic store, broker topic = some store → ∀ (p : Nat) msgs, store.partitions[p]? = some msgs →
    ∀ m ∈ msgs, m.deliveryAttempts = 0

theorem uncounted_update {broker : MessageBroker} {store : TopicStore} (h : Uncounted broker)
    (hstore : ∀ (p : Nat) msgs, store.partitions[p]? = some msgs →
      ∀ m ∈ msgs, m.deliveryAttempts = 0) :
    Uncounted (Function.update broker topic (some store)) := by
  intro topic' store' hstore'
  by_cases heq : topic' = topic
  · subst heq
    rw [Function.update_self] at hstore'
    cases hstore'
    exact hstore
  · rw [Function.update_of_ne heq] at hstore'
    exact h topic' store' hstore'

theorem uncounted_createTopic {broker : MessageBroker} (config : TopicConfig)
    (h : Uncounted broker) : Uncounted (broker.createTopic config) := by
  unfold MessageBroker.createTopic
  split
  · exact h
  · refine uncounted_update h fun p msgs hmsgs m hm => ?_
    rw [List.getElem?_replicate] at hmsgs
    split at hmsgs
    · cases hmsgs
      cases hm
    · cases hmsgs

theorem uncounted_publish {broker broker' : MessageBroker} {key : Option String}
    {headers : List (String × String)} {payload : Value} {manualPartition : Option Nat}
    {id : String} {now : Nat} (h : Uncounted broker)
    (hpublish : broker.publish topic key headers payload manualPartition id now = .ok broker') :
    Uncounted broker' := by
  unfold MessageBroker.publish at hpublish
  cases hstore : broker.store topic with
  | error e => simp [hstore, bind, Except.bind] at hpublish
  | ok store =>
      simp only [hstore, bind, Except.bind] at hpublish
      split at hpublish
      · cases hpublish
      · cases hpublish
        have hold := h topic store (store_ok (s := broker.queue) hstore)
        refine uncounted_update h fun p msgs hmsgs m hm => ?_
        rw [List.getElem?_modify] at hmsgs
        obtain ⟨msgs', hmsgs', rfl⟩ := Option.map_eq_some_iff.mp hmsgs
        split at hm
        · rcases List.mem_append.mp hm with hm | hm
          · exact hold p msgs' hmsgs' m hm
          · obtain rfl := List.mem_singleton.mp hm
            rfl
        · exact hold p msgs' hmsgs' m hm

theorem uncounted_sendToDlq {broker broker' : MessageBroker} {m : QueueMessage}
    (h : Uncounted broker) (hsend : broker.sendToDlq topic m = .ok broker') :
    Uncounted broker' := by
  unfold MessageBroker.sendToDlq at hsend
  cases hstore : broker.store topic with
  | error e => simp [hstore, bind, Except.bind] at hsend
  | ok store =>
      simp only [hstore, bind, Except.bind] at hsend
      cases hsend
      exact uncounted_update h (h topic store (store_ok (s := broker.queue) hstore))

theorem uncounted_commitOffset {broker broker' : MessageBroker} {partition offset : Nat}
    {group : String} (h : Uncounted broker)
    (hcommit : broker.commitOffset topic partition group offset = .ok broker') :
    Uncounted broker' := by
  unfold MessageBroker.commitOffset at hcommit
  cases hstore : broker.store topic with
  | error e => simp [hstore, bind, Except.bind] at hcommit
  | ok store =>
      simp only [hstore, bind, Except.bind] at hcommit
      cases hcommit
      exact uncounted_update h (h topic store (store_ok (s := broker.queue) hstore))

theorem uncounted_resume {c : Nat} {call : ProcessCall} {ok : Bool} (h : Uncounted s.broker) :
    Uncounted (s.resume c call ok).broker := by
  unfold QueueState.resume
  split
  · unfold QueueState.readOffset
    split <;> exact h
  · split
    · unfold QueueState.finish
      split
      · split
        · exact h
        · next hcommit => exact uncounted_commitOffset h hcommit
      · exact h
    · unfold QueueState.handleNext
      split
      · exact h
      · dsimp only
        split <;> exact h
  · unfold QueueState.reject
    split
    · exact h
    · next hsend => exact uncounted_sendToDlq h hsend
  · exact h

theorem uncounted_step (h : Uncounted s.broker) (hk : QueueStep s k t) : Uncounted t.broker := by
  unfold QueueStep step at hk
  cases k with
  | createTopic config =>
      cases hk
      exact uncounted_createTopic config h
  | publish topic key headers payload manualPartition id now =>
      dsimp only at hk
      split at hk
      · next hpublish =>
        cases hk
        exact uncounted_publish h hpublish
      · cases hk
      · cases hk
        exact h
  | process c topic partition group maxMessages maxRetries =>
      dsimp only at hk
      split at hk
      · cases hk
      · split at hk <;> cases hk <;> exact h
  | resume c ok =>
      obtain ⟨call, -, rfl⟩ := Option.map_eq_some_iff.mp hk
      exact uncounted_resume h

theorem run_uncounted (h : Run QueueStep .new history s) : Uncounted s.broker :=
  h.invariant (I := fun s => Uncounted s.broker) (fun _ _ hstore => by cases hstore)
    fun _ _ _ => uncounted_step

end Published

/-! ## Progress -/

section Progress

variable {consumer : Consumer σ} {w : Consumption σ} {m : QueueMessage} {s : QueueState}
  {history : List QueueAction}

theorem Poison.uncounted (h : Poison consumer w m) (hw : Uncounted w.broker) :
    m.deliveryAttempts = 0 := by
  have hm := h.next
  unfold Consumer.messages messages at hm
  split at hm
  · next store hstore =>
    cases hmessages : store.partitions[consumer.partition]? with
    | none => simp [hmessages] at hm
    | some msgs =>
        rw [hmessages, Option.getD_some] at hm
        exact hw _ store hstore _ msgs hmessages m (List.mem_of_getElem? hm)
  · cases hm

/-- Calls of one consumer that allow a message so many deliveries, each of some messages. -/
def Consumer.calls (consumer : Consumer σ) (maxRetries : Nat) (maxMessages : List Nat)
    (w : Consumption σ) : Consumption σ :=
  consumer.turns w (maxMessages.map fun n => .process n maxRetries)

/-- The message is the only one that is added to the dead-letter queue, and the consumer has
got past it. -/
def DeadLettered (consumer : Consumer σ) (m : QueueMessage) (w w' : Consumption σ) : Prop :=
  dlq w'.broker.queue consumer.topic = dlq w.broker.queue consumer.topic ++ [m.rejected] ∧
    consumer.offset w < consumer.offset w'

/-- No number of calls gets past a message which fails and may be delivered again. -/
theorem blocked {maxRetries : Nat} (h : Poison consumer w m)
    (hlt : m.deliveryAttempts < maxRetries) (maxMessages : List Nat) :
    (consumer.calls maxRetries maxMessages w).broker = w.broker ∧
      (consumer.calls maxRetries maxMessages w).finished = w.finished := by
  induction maxMessages generalizing w with
  | nil => exact ⟨rfl, rfl⟩
  | cons n maxMessages ih =>
      obtain ⟨hbroker, hfinished⟩ := process_blocked n h hlt
      have hnext : Poison consumer (consumer.process n maxRetries w).2 m := by
        refine ⟨?_, h.fails, ?_⟩
        · simpa only [Consumer.messages, Consumer.offset, hbroker] using h.next
        · simpa only [Consumer.messages, Consumer.offset, hbroker] using h.others
      obtain ⟨hbroker', hfinished'⟩ := ih hnext
      exact ⟨hbroker'.trans hbroker, hfinished'.trans hfinished⟩

/-- The calls of a sole consumer finish the messages of its partition in their order, each
once. A message that always fails is in the dead-letter queue after `max_retries + 1` calls
exactly if `max_retries` is zero. -/
theorem poison_message_iff (h : Run QueueStep .new history s) (hw : w.broker = s.broker)
    (hpoison : Poison consumer w m) (maxRetries : Nat) :
    (∀ (consumer : Consumer σ) (ks : List Turn) (w : Consumption σ),
      InOrder consumer w (consumer.turns w ks)) ∧
    ((∀ maxMessages : List Nat, maxMessages.length = maxRetries + 1 →
        (∀ n ∈ maxMessages, 0 < n) →
        DeadLettered consumer m w (consumer.calls maxRetries maxMessages w)) ↔
      maxRetries = 0) := by
  have hattempts := hpoison.uncounted (hw ▸ run_uncounted h)
  refine ⟨fun consumer ks w => turns_inOrder ks w, fun hall => ?_, ?_⟩
  · rcases Nat.eq_zero_or_pos maxRetries with hzero | hpos
    · exact hzero
    · obtain ⟨-, hpast⟩ := hall (List.replicate (maxRetries + 1) 1) List.length_replicate
        fun n hn => List.eq_of_mem_replicate hn ▸ Nat.one_pos
      have hbroker := (blocked hpoison (hattempts ▸ hpos)
        (List.replicate (maxRetries + 1) 1)).1
      simp only [Consumer.offset, hbroker, Nat.lt_irrefl] at hpast
  · rintro rfl maxMessages hlength hpos
    obtain ⟨n, rfl⟩ := List.length_eq_one_iff.mp hlength
    exact process_deadLetters hpoison (Nat.zero_le _) (hpos n List.mem_cons_self)

end Progress

/-! ## One message that always fails -/

/-- A handler that fails on the first message of `sampleTopic`. -/
def failingHandler : Handler Unit := fun _ m =>
  (if m.id = "m0" then .error "poisoned" else .ok (), ())

def sampleConsumer : Consumer Unit := ⟨"vaults", 0, "audit", failingHandler⟩

def firstMessage : QueueMessage := .new "vaults" 0 none [] .null "m0" 0

theorem sample_poison : ∃ s, play .new sampleTopic = some s ∧
    dlq s "vaults" = [] ∧ Poison sampleConsumer ⟨s.broker, (), []⟩ firstMessage := by
  refine ⟨_, rfl, rfl, rfl, fun st => ⟨"poisoned", rfl⟩, fun p x hx hne st => ?_⟩
  match p with
  | 0 => exact absurd rfl hne
  | 1 =>
      cases hx
      rfl
  | p + 2 => cases hx

theorem poison_message_three : ∃ history s, Run QueueStep .new history s ∧
    Poison sampleConsumer ⟨s.broker, (), []⟩ firstMessage ∧
    ¬ ∀ maxMessages : List Nat, maxMessages.length = 3 + 1 → (∀ n ∈ maxMessages, 0 < n) →
      DeadLettered sampleConsumer firstMessage ⟨s.broker, (), []⟩
        (sampleConsumer.calls 3 maxMessages ⟨s.broker, (), []⟩) := by
  obtain ⟨s, hs, -, hpoison⟩ := sample_poison
  have hrun := run_of_play hs
  refine ⟨_, s, hrun, hpoison, fun hall => ?_⟩
  have hzero := (poison_message_iff hrun rfl hpoison 3).2.mp hall
  cases hzero

/-- After four calls that allow three deliveries the message is not in the dead-letter queue,
and the offset is still at it. -/
theorem poison_message_stays : ∃ history s, Run QueueStep .new history s ∧
    Poison sampleConsumer ⟨s.broker, (), []⟩ firstMessage ∧
    dlq (sampleConsumer.calls 3 [1, 1, 1, 1] ⟨s.broker, (), []⟩).broker.queue "vaults" = [] ∧
    sampleConsumer.offset (sampleConsumer.calls 3 [1, 1, 1, 1] ⟨s.broker, (), []⟩) = 0 := by
  obtain ⟨s, hs, hdlq, hpoison⟩ := sample_poison
  have hblocked : (sampleConsumer.calls 3 [1, 1, 1, 1] ⟨s.broker, (), []⟩).broker = s.broker :=
    (blocked hpoison (by decide) _).1
  refine ⟨_, s, run_of_play hs, hpoison, ?_, ?_⟩
  · rw [hblocked]
    exact hdlq
  · cases hs
    rfl

end Heirloom.Backend.MessageQueue
