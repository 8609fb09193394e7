import Heirloom.Lib.Checkpoint
import Heirloom.Backend.EventSourcing

/-!
# Snapshots are transparent

A replay from a snapshot taken at an event of the log gives what a replay of the whole
log gives, but for the time of the last check-in, which a replay without check-ins takes
from its own clock.

Results:
1. `snapshots_transparent`: `replay` and `replay_to` agree with and without the snapshot.
2. `balance_fits`: the balance of a replay stays within an `i128`, so that the unbounded
   integers of the model are those of the code.
-/

namespace Heirloom.Backend

open Checkpoint EventLog

/-! ## States that differ in the last check-in only -/

namespace SnapshotState

structure Agrees (s t : SnapshotState) : Prop where
  balance_eq : s.balance = t.balance
  status_eq : s.status = t.status
  ttlRemaining_eq : s.ttlRemaining = t.ttlRemaining

theorem agrees_baseline (now now' : Nat) : Agrees (baseline now) (baseline now') :=
  ⟨Eq.refl _, Eq.refl _, Eq.refl _⟩

end SnapshotState

theorem applyEvent_agrees {s t : SnapshotState} (event : StoredEvent) (h : s.Agrees t) :
    (applyEvent s event).Agrees (applyEvent t event) := by
  obtain ⟨hbalance, hstatus, httl⟩ := h
  unfold applyEvent
  cases event.eventType with
  | deposit | withdrawal =>
      cases (event.data.get "balance_delta").bind Value.asI64 with
      | none => exact ⟨hbalance, hstatus, httl⟩
      | some delta => exact ⟨by simp only [hbalance], hstatus, httl⟩
  | checkIn | ttlUpdate =>
      cases (event.data.get "ttl_remaining").bind Value.asU64 with
      | none => exact ⟨hbalance, hstatus, httl⟩
      | some ttl => exact ⟨hbalance, hstatus, rfl⟩
  | statusChange =>
      cases (event.data.get "status").bind Value.asStr with
      | none => exact ⟨hbalance, hstatus, httl⟩
      | some name => exact ⟨hbalance, by simp only [hstatus], httl⟩
  | release => exact ⟨rfl, rfl, httl⟩

theorem applyAll_agrees {s t : SnapshotState} (events : List StoredEvent) (h : s.Agrees t) :
    (applyAll s events).Agrees (applyAll t events) := by
  induction events generalizing s t with
  | nil => exact h
  | cons event events ih => exact ih (applyEvent_agrees event.migrateToCurrent h)

theorem applyAll_append (s : SnapshotState) (events later : List StoredEvent) :
    applyAll s (events ++ later) = applyAll (applyAll s events) later :=
  List.foldl_append

/-! ## Replays as passes over the log -/

/-- The events of a log, whose numbers increase strictly. -/
structure IsLogOf (log : EventLog) (vaultId : String) (events : List StoredEvent) : Prop where
  read : log.eventsForVault vaultId = .ok events
  increasing : Increasing StoredEvent.sequence events

/-- What a pass over some events returns. -/
def replayed (vaultId : String) (state : SnapshotState) (startSeq : Nat)
    (events : List StoredEvent) : ReplayedState :=
  ⟨vaultId, applyAll state events, lastKey StoredEvent.sequence events startSeq, events.length⟩

section Passes

variable {log : EventLog} {store : SnapshotStore} {vaultId : String} {events : List StoredEvent}
  {snap : VaultSnapshot} {n now : Nat}

theorem eventsAfter_eq (h : IsLogOf log vaultId events) :
    log.eventsAfter vaultId n = .ok (after StoredEvent.sequence n events) := by
  unfold eventsAfter
  rw [h.read]
  rfl

theorem replay_of_none (h : IsLogOf log vaultId events) (hstore : store.get vaultId = none) :
    replay log store vaultId now =
      .ok (replayed vaultId (.baseline now) 0 (after StoredEvent.sequence 0 events)) := by
  unfold replay
  rw [hstore]
  simp only [eventsAfter_eq h]
  rfl

theorem replay_of_some (h : IsLogOf log vaultId events) (hstore : store.get vaultId = some snap) :
    replay log store vaultId now = .ok (replayed vaultId snap.state snap.snapshotSequence
      (after StoredEvent.sequence snap.snapshotSequence events)) := by
  unfold replay
  rw [hstore]
  simp only [eventsAfter_eq h]
  rfl

theorem replayTo_of_none (h : IsLogOf log vaultId events) (hstore : store.get vaultId = none) :
    replayTo log store vaultId n now = .ok (replayed vaultId (.baseline now) 0
      (upTo StoredEvent.sequence n (after StoredEvent.sequence 0 events))) := by
  unfold replayTo
  rw [hstore]
  simp only [eventsAfter_eq h]
  rfl

theorem replayTo_of_le (h : IsLogOf log vaultId events) (hstore : store.get vaultId = some snap)
    (hn : snap.snapshotSequence ≤ n) :
    replayTo log store vaultId n now = .ok (replayed vaultId snap.state snap.snapshotSequence
      (upTo StoredEvent.sequence n (after StoredEvent.sequence snap.snapshotSequence events))) := by
  unfold replayTo
  rw [hstore]
  simp only [if_pos hn, eventsAfter_eq h]
  rfl

/-- A snapshot beyond the target is not used. -/
theorem replayTo_of_lt (h : IsLogOf log vaultId events) (hstore : store.get vaultId = some snap)
    (hn : n < snap.snapshotSequence) :
    replayTo log store vaultId n now = .ok (replayed vaultId (.baseline now) 0
      (upTo StoredEvent.sequence n (after StoredEvent.sequence 0 events))) := by
  unfold replayTo
  rw [hstore]
  simp only [if_neg (Nat.not_le.mpr hn), eventsAfter_eq h]
  rfl

end Passes

/-! ## The snapshot of an event -/

/-- The results agree in what a replay determines. -/
structure ReplayedState.Agrees (r q : ReplayedState) : Prop where
  state : r.state.Agrees q.state
  lastSequence_eq : r.lastSequence = q.lastSequence

/-- A pass over the log, resumed at the event `k` from the state of the pass up to it. -/
theorem replayed_resumed {vaultId : String} {events later : List StoredEvent} {k now : Nat}
    {s : SnapshotState} (h : Increasing StoredEvent.sequence events)
    (hk : k ∈ events.map StoredEvent.sequence)
    (hs : s.Agrees (applyAll (.baseline now)
      (upTo StoredEvent.sequence k (after StoredEvent.sequence 0 events)))) :
    (replayed vaultId s k later).Agrees (replayed vaultId (.baseline now) 0
      (upTo StoredEvent.sequence k (after StoredEvent.sequence 0 events) ++ later)) := by
  constructor
  · show (applyAll s later).Agrees (applyAll (.baseline now) (_ ++ later))
    rw [applyAll_append]
    exact applyAll_agrees later hs
  · exact (lastKey_resumed h (Nat.zero_le k) hk).symm

/-- The replays of a vault with the snapshots of `store` agree with those without any. -/
structure Transparent (log : EventLog) (store : SnapshotStore) (vaultId : String) : Prop where
  replay : ∀ now now', ∃ r q, Backend.replay log store vaultId now = .ok r ∧
    Backend.replay log .new vaultId now' = .ok q ∧ r.Agrees q
  replayTo : ∀ n now now', ∃ r q, Backend.replayTo log store vaultId n now = .ok r ∧
    Backend.replayTo log .new vaultId n now' = .ok q ∧ r.Agrees q

/-- A snapshot of the state a replay up to an event of the log gives is transparent. -/
theorem snapshots_transparent {log : EventLog} {store : SnapshotStore} {vaultId : String}
    {events : List StoredEvent} {snap : VaultSnapshot} {taken : ReplayedState} {now : Nat}
    (h : IsLogOf log vaultId events) (hstore : store.get vaultId = some snap)
    (hk : snap.snapshotSequence ∈ events.map StoredEvent.sequence)
    (htaken : Backend.replayTo log .new vaultId snap.snapshotSequence now = .ok taken)
    (hstate : snap.state = taken.state) : Transparent log store vaultId := by
  have hbase : ∀ now', snap.state.Agrees (applyAll (.baseline now')
      (upTo StoredEvent.sequence snap.snapshotSequence
        (after StoredEvent.sequence 0 events))) := by
    intro now'
    rw [replayTo_of_none h rfl] at htaken
    rw [hstate, ← Except.ok.inj htaken]
    exact applyAll_agrees _ (SnapshotState.agrees_baseline now now')
  have hresumed := after_resumed h.increasing (Nat.zero_le snap.snapshotSequence)
  constructor
  · intro now₁ now₂
    refine ⟨_, _, replay_of_some h hstore, replay_of_none h rfl, ?_⟩
    rw [hresumed]
    exact replayed_resumed h.increasing hk (hbase now₂)
  · intro n now₁ now₂
    rcases Nat.lt_or_ge n snap.snapshotSequence with hlt | hle
    · refine ⟨_, _, replayTo_of_lt h hstore hlt, replayTo_of_none h rfl, ?_⟩
      exact ⟨applyAll_agrees _ (SnapshotState.agrees_baseline now₁ now₂), rfl⟩
    · refine ⟨_, _, replayTo_of_le h hstore hle, replayTo_of_none h rfl, ?_⟩
      rw [hresumed, upTo_append, upTo_upTo hle]
      exact replayed_resumed h.increasing hk (hbase now₂)

/-- A deposit of the old schema, a check-in and a withdrawal. -/
def sampleEvents : List StoredEvent :=
  [⟨"vault-1", 1, .deposit, 10, .object [("amount", .number (.posInt 1000))], 0⟩,
    .new "vault-1" 2 .checkIn (.object [("ttl_remaining", .number (.posInt 86400))]) 20,
    .new "vault-1" 3 .withdrawal (.object [("balance_delta", .number (.posInt 200))]) 30]

theorem isLogOf_sampleEvents :
    IsLogOf { new with events := sampleEvents } "vault-1" sampleEvents := by
  have hincreasing : Increasing StoredEvent.sequence sampleEvents := by
    simp [Increasing, sampleEvents, StoredEvent.new]
  refine ⟨?_, hincreasing⟩
  show Except.ok (sortBySequence (sampleEvents.filter (·.vaultId = "vault-1"))) = _
  have hall : sampleEvents.filter (·.vaultId = "vault-1") = sampleEvents := rfl
  rw [hall, sortBySequence_of_sorted hincreasing]

theorem snapshots_transparent_sample :
    Transparent { new with events := sampleEvents }
      (SnapshotStore.new.save ⟨"vault-1", 2, 25, ⟨1000, .active, 20, some 86400⟩⟩) "vault-1" :=
  snapshots_transparent isLogOf_sampleEvents rfl (by decide)
    (@replayTo_of_none _ _ _ _ 2 20 isLogOf_sampleEvents rfl) rfl

/-! ## Balances -/

theorem asI64_bounds {v : Value} {delta : Int} (h : v.asI64 = some delta) :
    delta.natAbs ≤ 2 ^ 63 := by
  unfold Value.asI64 at h
  split at h
  · next n =>
    split at h
    · next hn =>
      cases h
      exact hn.le
    · cases h
  · next n =>
    cases h
    have hlow := n.le_toInt
    have hhigh := n.toInt_lt
    omega
  · cases h

/-- An event changes the balance by an `i64` at most, or clears it. -/
theorem applyEvent_balance (s : SnapshotState) (event : StoredEvent) :
    (applyEvent s event).balance.natAbs ≤ s.balance.natAbs + 2 ^ 63 := by
  unfold applyEvent
  cases event.eventType with
  | deposit =>
      cases hdelta : (event.data.get "balance_delta").bind Value.asI64 with
      | none => exact Nat.le_add_right _ _
      | some delta =>
          obtain ⟨v, -, hv⟩ := Option.bind_eq_some_iff.mp hdelta
          exact (Int.natAbs_add_le _ _).trans (Nat.add_le_add_left (asI64_bounds hv) _)
  | withdrawal =>
      cases hdelta : (event.data.get "balance_delta").bind Value.asI64 with
      | none => exact Nat.le_add_right _ _
      | some delta =>
          obtain ⟨v, -, hv⟩ := Option.bind_eq_some_iff.mp hdelta
          exact (Int.natAbs_sub_le _ _).trans (Nat.add_le_add_left (asI64_bounds hv) _)
  | checkIn | ttlUpdate =>
      cases (event.data.get "ttl_remaining").bind Value.asU64 <;> exact Nat.le_add_right _ _
  | statusChange =>
      cases (event.data.get "status").bind Value.asStr <;> exact Nat.le_add_right _ _
  | release => exact Nat.zero_le _

theorem applyAll_balance (s : SnapshotState) (events : List StoredEvent) :
    (applyAll s events).balance.natAbs ≤ s.balance.natAbs + events.length * 2 ^ 63 := by
  induction events generalizing s with
  | nil => exact Nat.le_add_right _ _
  | cons event events ih =>
      have hrest := ih (applyEvent s event.migrateToCurrent)
      have hfirst := applyEvent_balance s event.migrateToCurrent
      rw [List.length_cons]
      show (applyAll (applyEvent s event.migrateToCurrent) events).balance.natAbs ≤ _
      omega

/-- No replay of a log of `u64` numbers leaves the range of an `i128`. -/
theorem balance_fits {events : List StoredEvent} {now : Nat}
    (h : Increasing StoredEvent.sequence events) (hu64 : ∀ e ∈ events, e.sequence < 2 ^ 64) :
    (applyAll (.baseline now) (after StoredEvent.sequence 0 events)).balance.natAbs < 2 ^ 127 := by
  have hlength : (after StoredEvent.sequence 0 events).length ≤ (2 ^ 64 - 1) - 0 := by
    refine length_le_of_increasing (h.filter _) (fun e he => ?_) fun e he => ?_
    · simpa using (List.mem_filter.mp he).2
    · exact Nat.le_sub_one_of_lt (hu64 e (List.mem_of_mem_filter he))
  have hbalance := applyAll_balance (.baseline now) (after StoredEvent.sequence 0 events)
  have hzero : (SnapshotState.baseline now).balance.natAbs = 0 := rfl
  omega

end Heirloom.Backend
