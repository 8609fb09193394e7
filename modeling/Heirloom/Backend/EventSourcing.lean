import Mathlib.Algebra.Group.Nat.Defs
import Mathlib.Data.List.Sort

/-!
# Event sourcing

The backend keeps the history of every vault in an append-only log and rebuilds the
state of a vault by replaying its events, from a snapshot where there is one.

The log of a process holds two tables of its own, the events it has appended and the next
number of every vault, and shares the database with the processes before and after it.
A row of the database is kept as the values its columns encode, but for the event type,
whose text the code reads back itself. Locks are never poisoned here.
-/

namespace Heirloom.Backend

/-! ## JSON values -/

inductive Number
  | posInt (n : UInt64)
  | negInt (n : Int64)
  | float (bits : UInt64)

inductive Value
  | null
  | bool (b : Bool)
  | number (n : Number)
  | string (s : String)
  | array (items : List Value)
  | object (fields : List (String × Value))

namespace Value

def get : Value → String → Option Value
  | .object fields, key => fields.lookup key
  | _, _ => none

def asI64 : Value → Option Int
  | .number (.posInt n) => if n.toNat < 2 ^ 63 then some n.toNat else none
  | .number (.negInt n) => some n.toInt
  | _ => none

def asU64 : Value → Option Nat
  | .number (.posInt n) => some n.toNat
  | _ => none

def asStr : Value → Option String
  | .string s => some s
  | _ => none

end Value

/-- The fields of an object without one of them. -/
def removeField (key : String) (fields : List (String × Value)) : List (String × Value) :=
  fields.filter (·.1 ≠ key)

def insertField (key : String) (v : Value) (fields : List (String × Value)) :
    List (String × Value) :=
  (key, v) :: removeField key fields

/-! ## Events -/

inductive EventType
  | checkIn | ttlUpdate | statusChange | deposit | withdrawal | release
deriving DecidableEq

inductive VaultStatus
  | active | expired | released | paused
deriving DecidableEq

/-- The errors the log returns. A database error carries the text of its cause. -/
inductive EventSourcingError
  | databaseError (cause : String)
deriving DecidableEq

/-- What `{:?}` writes. -/
def EventType.debug : EventType → String
  | .checkIn => "CheckIn"
  | .ttlUpdate => "TtlUpdate"
  | .statusChange => "StatusChange"
  | .deposit => "Deposit"
  | .withdrawal => "Withdrawal"
  | .release => "Release"

def parseEventType (s : String) : Except EventSourcingError EventType :=
  match s with
  | "CheckIn" => .ok .checkIn
  | "TtlUpdate" => .ok .ttlUpdate
  | "StatusChange" => .ok .statusChange
  | "Deposit" => .ok .deposit
  | "Withdrawal" => .ok .withdrawal
  | "Release" => .ok .release
  | _ => .error (.databaseError ("unknown event type: " ++ s))

def currentSchemaVersion : Nat := 1

structure StoredEvent where
  vaultId : String
  sequence : Nat
  eventType : EventType
  timestamp : Nat
  data : Value
  schemaVersion : Nat

namespace StoredEvent

def new (vaultId : String) (sequence : Nat) (eventType : EventType) (data : Value)
    (now : Nat) : StoredEvent :=
  ⟨vaultId, sequence, eventType, now, data, currentSchemaVersion⟩

/-- Version 0 called the field `balance_delta` of version 1 `amount`. -/
def renameAmount : Value → Value
  | .object fields =>
      match fields.lookup "amount" with
      | some v => .object (insertField "balance_delta" v (removeField "amount" fields))
      | none => .object fields
  | data => data

def migrateToCurrent (event : StoredEvent) : StoredEvent :=
  if event.schemaVersion = currentSchemaVersion then event
  else if event.schemaVersion = 0 then
    { event with data := renameAmount event.data, schemaVersion := 1 }
  else event

end StoredEvent

/-! ## The table of events -/

/-- A row of `events`, whose primary key is `(vault_id, sequence)`. The casts of the
sequence to `i64` and back cancel. -/
structure EventRow where
  vaultId : String
  sequence : Nat
  eventType : String
  timestamp : Nat
  data : Value
  schemaVersion : Nat

abbrev EventTable := List EventRow

namespace EventTable

/-- Some row has this key. -/
def holds (table : EventTable) (vaultId : String) (sequence : Nat) : Bool :=
  table.any fun row => row.vaultId = vaultId ∧ row.sequence = sequence

/-- `append_event`: one insert, which fails if its key exists, or if the database cannot
be written (`failure`). -/
def appendEvent (table : EventTable) (row : EventRow) (failure : Option String) :
    Except String EventTable :=
  match failure with
  | some cause => .error cause
  | none =>
      if table.holds row.vaultId row.sequence then
        .error "UNIQUE constraint failed: events.vault_id, events.sequence"
      else .ok (table ++ [row])

/-- The rows of a vault. The query orders them by sequence; its caller does so again. -/
def getEventsForVault (table : EventTable) (vaultId : String) : List EventRow :=
  table.filter (·.vaultId = vaultId)

end EventTable

/-! ## The log -/

structure EventLog where
  events : List StoredEvent
  sequences : String → Option Nat
  db : Option EventTable

namespace EventLog

def new : EventLog := ⟨[], fun _ => none, none⟩

/-- The log of a process that starts on a database. -/
def withDb (db : EventTable) : EventLog := ⟨[], fun _ => none, some db⟩

/-- The number the next event of a vault is given. -/
def nextSequence (log : EventLog) (vaultId : String) : Nat :=
  (log.sequences vaultId).getD 1

/-- Takes the next number of a vault. The counter is a `u64`. -/
def assign (log : EventLog) (vaultId : String) : EventLog :=
  { log with
    sequences := Function.update log.sequences vaultId
      (some ((log.nextSequence vaultId + 1) % 2 ^ 64)) }

def rowOf (event : StoredEvent) : EventRow :=
  ⟨event.vaultId, event.sequence, event.eventType.debug, event.timestamp, event.data,
    event.schemaVersion⟩

/-- The number is taken before the database is asked, and is not given back if it refuses. -/
def append (log : EventLog) (vaultId : String) (eventType : EventType) (data : Value)
    (now : Nat) (failure : Option String) : Except EventSourcingError Nat × EventLog :=
  let seq := log.nextSequence vaultId
  let log := log.assign vaultId
  let event := StoredEvent.new vaultId seq eventType data now
  match log.db with
  | some db =>
      match db.appendEvent (rowOf event) failure with
      | .error cause => (.error (.databaseError cause), log)
      | .ok db => (.ok seq, { log with db := some db, events := log.events ++ [event] })
  | none => (.ok seq, { log with events := log.events ++ [event] })

/-- Reads a row back. -/
def eventOf (row : EventRow) : Except EventSourcingError StoredEvent := do
  let eventType ← parseEventType row.eventType
  .ok ⟨row.vaultId, row.sequence, eventType, row.timestamp, row.data, row.schemaVersion⟩

def sortBySequence (events : List StoredEvent) : List StoredEvent :=
  events.mergeSort fun a b => a.sequence ≤ b.sequence

def eventsForVault (log : EventLog) (vaultId : String) :
    Except EventSourcingError (List StoredEvent) :=
  match log.db with
  | some db => do
      let result ← (db.getEventsForVault vaultId).mapM eventOf
      .ok (sortBySequence result)
  | none => .ok (sortBySequence (log.events.filter (·.vaultId = vaultId)))

def eventsAfter (log : EventLog) (vaultId : String) (afterSequence : Nat) :
    Except EventSourcingError (List StoredEvent) := do
  let all ← log.eventsForVault vaultId
  .ok (all.filter fun e => afterSequence < e.sequence)

end EventLog

/-! ## Snapshots and replay -/

structure SnapshotState where
  balance : Int
  status : VaultStatus
  lastCheckIn : Nat
  ttlRemaining : Option Nat
deriving DecidableEq

structure VaultSnapshot where
  vaultId : String
  snapshotSequence : Nat
  takenAt : Nat
  state : SnapshotState

/-- The store holds the latest snapshot of a vault, in memory or in a table with the vault
as its key. -/
structure SnapshotStore where
  snapshots : String → Option VaultSnapshot

namespace SnapshotStore

def new : SnapshotStore := ⟨fun _ => none⟩

def save (store : SnapshotStore) (snapshot : VaultSnapshot) : SnapshotStore :=
  ⟨Function.update store.snapshots snapshot.vaultId (some snapshot)⟩

def get (store : SnapshotStore) (vaultId : String) : Option VaultSnapshot :=
  store.snapshots vaultId

end SnapshotStore

/-- The state a replay without a snapshot starts in. -/
def SnapshotState.baseline (now : Nat) : SnapshotState := ⟨0, .active, now, none⟩

/-- The status a payload names; any other text leaves it as it is. -/
def statusNamed (s : String) (status : VaultStatus) : VaultStatus :=
  match s with
  | "active" => .active
  | "expired" => .expired
  | "released" => .released
  | "paused" => .paused
  | _ => status

def applyEvent (state : SnapshotState) (event : StoredEvent) : SnapshotState :=
  match event.eventType with
  | .deposit =>
      match (event.data.get "balance_delta").bind Value.asI64 with
      | some delta => { state with balance := state.balance + delta }
      | none => state
  | .withdrawal =>
      match (event.data.get "balance_delta").bind Value.asI64 with
      | some delta => { state with balance := state.balance - delta }
      | none => state
  | .checkIn =>
      let state := { state with lastCheckIn := event.timestamp }
      match (event.data.get "ttl_remaining").bind Value.asU64 with
      | some ttl => { state with ttlRemaining := some ttl }
      | none => state
  | .ttlUpdate =>
      match (event.data.get "ttl_remaining").bind Value.asU64 with
      | some ttl => { state with ttlRemaining := some ttl }
      | none => state
  | .statusChange =>
      match (event.data.get "status").bind Value.asStr with
      | some s => { state with status := statusNamed s state.status }
      | none => state
  | .release => { state with status := .released, balance := 0 }

structure ReplayedState where
  vaultId : String
  state : SnapshotState
  lastSequence : Nat
  eventsApplied : Nat
deriving DecidableEq

/-- The loop of a replay: every event is migrated, then applied. -/
def applyAll (state : SnapshotState) (events : List StoredEvent) : SnapshotState :=
  events.foldl (fun state raw => applyEvent state raw.migrateToCurrent) state

/-- The number of the last event, or where the replay started. -/
def lastSequenceOf (events : List StoredEvent) (startSeq : Nat) : Nat :=
  (events.getLast?.map (·.sequence)).getD startSeq

def replay (log : EventLog) (store : SnapshotStore) (vaultId : String) (now : Nat) :
    Except EventSourcingError ReplayedState := do
  let (state, startSeq) := match store.get vaultId with
    | some snap => (snap.state, snap.snapshotSequence)
    | none => (.baseline now, 0)
  let events ← log.eventsAfter vaultId startSeq
  .ok ⟨vaultId, applyAll state events, lastSequenceOf events startSeq, events.length⟩

/-- A snapshot is used only if it is not beyond the target. -/
def replayTo (log : EventLog) (store : SnapshotStore) (vaultId : String)
    (targetSequence now : Nat) : Except EventSourcingError ReplayedState := do
  let (state, startSeq) := match store.get vaultId with
    | some snap =>
        if snap.snapshotSequence ≤ targetSequence then (snap.state, snap.snapshotSequence)
        else (.baseline now, 0)
    | none => (.baseline now, 0)
  let events ← log.eventsAfter vaultId startSeq
  let filtered := events.filter fun e => e.sequence ≤ targetSequence
  .ok ⟨vaultId, applyAll state filtered, lastSequenceOf filtered startSeq, filtered.length⟩

/-! ## Reading rows back -/

@[simp] theorem parseEventType_debug (eventType : EventType) :
    parseEventType eventType.debug = .ok eventType := by
  cases eventType <;> rfl

@[simp] theorem eventOf_rowOf (event : StoredEvent) :
    EventLog.eventOf (EventLog.rowOf event) = .ok event := by
  simp only [EventLog.eventOf, EventLog.rowOf, parseEventType_debug]
  rfl

theorem mapM_eventOf (events : List StoredEvent) :
    (events.map EventLog.rowOf).mapM EventLog.eventOf = .ok events := by
  induction events with
  | nil => rfl
  | cons event events ih =>
      rw [List.map_cons, List.mapM_cons, eventOf_rowOf, ih]
      rfl

/-- Events in the order of their numbers stay as they are. -/
theorem sortBySequence_of_sorted {events : List StoredEvent}
    (h : events.Pairwise fun a b => a.sequence < b.sequence) :
    EventLog.sortBySequence events = events := by
  refine List.mergeSort_of_pairwise (h.imp ?_)
  intro a b hab
  exact decide_eq_true hab.le

end Heirloom.Backend
