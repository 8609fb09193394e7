import Mathlib.Algebra.GroupWithZero.Nat
import Mathlib.Algebra.BigOperators.Group.List.Basic
import Mathlib.Data.List.Induction
import Heirloom.Backend.Replay

/-!
# The amounts of a replay

The payload of a deposit or a withdrawal is read as an `i64`. Where it does not fit, the event is
passed over without an error, so that the amount is missing from the balance.

Results:
1. `replayed_amounts_iff`: a replay of a log whose amounts are `u64` numbers gives the deposits less
   the withdrawals since the last release, if and only if those of 2^63 or more cancel out.
2. `large_deposit_dropped`: a deposit that is missing.
-/

namespace Heirloom.Backend

open Checkpoint EventLog

/-! ## Amounts -/

/-- The field of the amount, by the version of the payload. -/
def amountField (event : StoredEvent) : String :=
  if event.schemaVersion = 0 then "amount" else "balance_delta"

/-- The amount that the payload carries. -/
def carried (event : StoredEvent) : Option Nat :=
  (event.data.get (amountField event)).bind Value.asU64

def amountOf (event : StoredEvent) : Nat := (carried event).getD 0

/-- The part of the amount that fits an `i64`: all or nothing. -/
def keptOf (event : StoredEvent) : Nat := if amountOf event < 2 ^ 63 then amountOf event else 0

/-- The part that does not. -/
def droppedOf (event : StoredEvent) : Nat := if amountOf event < 2 ^ 63 then 0 else amountOf event

/-- Deposits and withdrawals carry their amounts. -/
def CarriesAmounts (events : List StoredEvent) : Prop :=
  ∀ e ∈ events, e.eventType = .deposit ∨ e.eventType = .withdrawal → (carried e).isSome = true

/-- The events after the last release. -/
def sinceRelease (events : List StoredEvent) : List StoredEvent :=
  (events.reverse.takeWhile fun e => e.eventType ≠ .release).reverse

/-- The sum of what the events of a type amount to. -/
def total (amount : StoredEvent → Nat) (eventType : EventType) (events : List StoredEvent) : Nat :=
  ((events.filter fun e => e.eventType = eventType).map amount).sum

/-- The deposits less the withdrawals since the last release. -/
def balanceOf (amount : StoredEvent → Nat) (events : List StoredEvent) : Int :=
  total amount .deposit (sinceRelease events) - total amount .withdrawal (sinceRelease events)

section Amounts

variable {amount : StoredEvent → Nat} {eventType : EventType} {events : List StoredEvent}
  {event : StoredEvent} {s : SnapshotState}

theorem total_append_singleton : total amount eventType (events ++ [event]) =
    total amount eventType events + if event.eventType = eventType then amount event else 0 := by
  unfold total
  rw [List.filter_append, List.map_append, List.sum_append, List.filter_singleton]
  split <;> simp_all

theorem sinceRelease_append (h : event.eventType ≠ .release) :
    sinceRelease (events ++ [event]) = sinceRelease events ++ [event] := by
  unfold sinceRelease
  rw [List.reverse_append, List.reverse_singleton, List.singleton_append,
    List.takeWhile_cons_of_pos (by simpa using h), List.reverse_cons]

theorem sinceRelease_append_release (h : event.eventType = .release) :
    sinceRelease (events ++ [event]) = [] := by
  unfold sinceRelease
  rw [List.reverse_append, List.reverse_singleton, List.singleton_append,
    List.takeWhile_cons_of_neg (by simpa using h), List.reverse_nil]

theorem total_add (f g : StoredEvent → Nat) :
    total (fun e => f e + g e) eventType events =
      total f eventType events + total g eventType events := by
  unfold total
  exact List.sum_map_add

theorem kept_add_dropped (event : StoredEvent) : keptOf event + droppedOf event = amountOf event := by
  unfold keptOf droppedOf
  split
  · rfl
  · exact Nat.zero_add _

/-! ## The balance of a replay -/

/-- The migration finds the amount wherever the version of the payload has it. -/
theorem get_migrateToCurrent (h : (carried event).isSome = true) :
    event.migrateToCurrent.data.get "balance_delta" = event.data.get (amountField event) := by
  unfold carried amountField at *
  unfold StoredEvent.migrateToCurrent currentSchemaVersion
  by_cases hold : event.schemaVersion = 0
  · rw [if_pos hold] at h ⊢
    rw [if_neg (by omega), if_pos hold]
    unfold StoredEvent.renameAmount
    dsimp only
    split
    · rename_i fields hdata
      rw [hdata] at h ⊢
      cases hfield : fields.lookup "amount" with
      | none => simp [Value.get, hfield] at h
      | some v => simp [Value.get, insertField, hfield]
    · rename_i hdata
      obtain ⟨n, hn⟩ := Option.isSome_iff_exists.mp h
      obtain ⟨v, hv, -⟩ := Option.bind_eq_some_iff.mp hn
      cases hobject : event.data with
      | object fields => exact absurd hobject (hdata fields)
      | null | bool | number | string | array =>
          rw [hobject] at hv
          cases hv
  · rw [if_neg hold]
    split <;> rfl

theorem asI64_of_asU64 {v : Value} {n : Nat} (h : v.asU64 = some n) :
    v.asI64 = if n < 2 ^ 63 then some (n : Int) else none := by
  unfold Value.asU64 at h
  split at h
  · obtain rfl := Option.some.inj h
    rfl
  · cases h

/-- What the code reads of an amount. -/
theorem delta_eq (h : (carried event).isSome = true) :
    (event.migrateToCurrent.data.get "balance_delta").bind Value.asI64 =
      if amountOf event < 2 ^ 63 then some (amountOf event : Int) else none := by
  rw [get_migrateToCurrent h]
  obtain ⟨n, hn⟩ := Option.isSome_iff_exists.mp h
  have hamount : amountOf event = n := by
    unfold amountOf
    rw [hn]
    rfl
  unfold carried at hn
  obtain ⟨v, hv, hvn⟩ := Option.bind_eq_some_iff.mp hn
  rw [hv, Option.bind_some, asI64_of_asU64 hvn, hamount]

theorem eventType_migrateToCurrent : event.migrateToCurrent.eventType = event.eventType := by
  unfold StoredEvent.migrateToCurrent
  split
  · rfl
  · split <;> rfl

/-- What an event with an amount does to a balance. -/
def settle (amount : StoredEvent → Nat) (balance : Int) (event : StoredEvent) : Int :=
  match event.eventType with
  | .deposit => balance + amount event
  | .withdrawal => balance - amount event
  | .release => 0
  | .checkIn | .ttlUpdate | .statusChange => balance

theorem balanceOf_append : balanceOf amount (events ++ [event]) =
    settle amount (balanceOf amount events) event := by
  by_cases hrelease : event.eventType = .release
  · unfold balanceOf settle
    rw [sinceRelease_append_release hrelease, hrelease]
    rfl
  · unfold balanceOf settle
    rw [sinceRelease_append hrelease, total_append_singleton, total_append_singleton]
    cases htype : event.eventType with
    | release => exact absurd htype hrelease
    | deposit =>
        simp only [if_true, reduceCtorEq, if_false]
        omega
    | withdrawal =>
        simp only [if_true, reduceCtorEq, if_false]
        omega
    | checkIn | ttlUpdate | statusChange =>
        simp only [reduceCtorEq, if_false]
        rfl

theorem applyEvent_settles (h : CarriesAmounts [event]) :
    (applyEvent s event.migrateToCurrent).balance = settle keptOf s.balance event := by
  have hcarried := h event (List.mem_singleton_self event)
  unfold applyEvent settle
  rw [eventType_migrateToCurrent]
  cases htype : event.eventType with
  | deposit | withdrawal =>
      dsimp only
      rw [delta_eq (hcarried (by rw [htype]; simp))]
      unfold keptOf
      by_cases hsmall : amountOf event < 2 ^ 63
      · rw [if_pos hsmall, if_pos hsmall]
      · rw [if_neg hsmall, if_neg hsmall]
        simp
  | checkIn | ttlUpdate =>
      dsimp only
      cases (event.migrateToCurrent.data.get "ttl_remaining").bind Value.asU64 <;> rfl
  | statusChange =>
      dsimp only
      cases (event.migrateToCurrent.data.get "status").bind Value.asStr <;> rfl
  | release => rfl

/-- The replay adds up the amounts that fit. -/
theorem balance_applyAll (now : Nat) (h : CarriesAmounts events) :
    (applyAll (.baseline now) events).balance = balanceOf keptOf events := by
  induction events using List.reverseRecOn with
  | nil => rfl
  | append_singleton events event ih =>
      have hstate := ih fun e he => h e (List.mem_append_left _ he)
      have hevent : CarriesAmounts [event] := fun e he => h e (List.mem_append_right _ he)
      rw [applyAll_append, balanceOf_append, ← hstate]
      exact applyEvent_settles hevent

theorem total_amountOf : total amountOf eventType events =
    total keptOf eventType events + total droppedOf eventType events := by
  rw [← total_add]
  congr 1
  exact funext fun e => (kept_add_dropped e).symm

end Amounts

/-- A replay of a log whose deposits and withdrawals carry `u64` numbers: the balance is the
deposits less the withdrawals since the last release, if and only if those of 2^63 or more add up
to the same on both sides. -/
theorem replayed_amounts_iff {log : EventLog} {store : SnapshotStore} {vaultId : String}
    {events : List StoredEvent} (hread : log.eventsForVault vaultId = .ok events)
    (hstore : store.get vaultId = none) (hnumbers : ∀ e ∈ events, 0 < e.sequence)
    (hcarries : CarriesAmounts events) (now : Nat) :
    (∃ r, replay log store vaultId now = .ok r ∧ r.state.balance = balanceOf amountOf events) ↔
      total droppedOf .deposit (sinceRelease events) =
        total droppedOf .withdrawal (sinceRelease events) := by
  have hall : log.eventsAfter vaultId 0 = .ok events := by
    have hfilter : events.filter (fun e => 0 < e.sequence) = events :=
      List.filter_eq_self.mpr fun e he => decide_eq_true (hnumbers e he)
    unfold eventsAfter
    rw [hread]
    exact congrArg Except.ok hfilter
  have hreplay : replay log store vaultId now = .ok ⟨vaultId, applyAll (.baseline now) events,
      lastSequenceOf events 0, events.length⟩ := by
    unfold replay
    rw [hstore]
    simp only [hall]
    rfl
  have hbalance := balance_applyAll now hcarries
  rw [hreplay]
  simp only [Except.ok.injEq, exists_eq_left', hbalance, balanceOf, total_amountOf]
  omega

theorem replayed_amounts_sample :
    ∃ r, replay { new with events := sampleEvents } .new "vault-1" 40 = .ok r ∧
      r.state.balance = 800 := by
  have hcarries : CarriesAmounts sampleEvents := by
    unfold CarriesAmounts
    decide
  have hstore : SnapshotStore.new.get "vault-1" = none := rfl
  obtain ⟨r, hr, hbalance⟩ := (replayed_amounts_iff isLogOf_sampleEvents.read hstore (by decide)
    hcarries 40).mpr (by decide)
  exact ⟨r, hr, hbalance.trans (by decide)⟩

/-- A release, a deposit under its old name, and one of 2^63. -/
def largeDeposit : List StoredEvent :=
  [.new "vault-1" 1 .release .null 10,
    ⟨"vault-1", 2, .deposit, 20, .object [("amount", .number (.posInt 500))], 0⟩,
    .new "vault-1" 3 .deposit
      (.object [("balance_delta", .number (.posInt (UInt64.ofNat (2 ^ 63))))]) 30]

/-- Of a deposit of 500 and one of 2^63, the first is replayed. -/
theorem large_deposit_dropped :
    ∃ r, EventLog.eventsForVault { new with events := largeDeposit } "vault-1" = .ok largeDeposit ∧
      (∀ e ∈ largeDeposit, 0 < e.sequence) ∧ CarriesAmounts largeDeposit ∧
      replay { new with events := largeDeposit } .new "vault-1" 40 = .ok r ∧
      r.state.balance = 500 ∧ balanceOf amountOf largeDeposit = 500 + 2 ^ 63 := by
  have hincreasing : Increasing StoredEvent.sequence largeDeposit := by
    simp [Increasing, largeDeposit, StoredEvent.new]
  have hread : EventLog.eventsForVault { new with events := largeDeposit } "vault-1" =
      .ok largeDeposit := by
    show Except.ok (sortBySequence (largeDeposit.filter (·.vaultId = "vault-1"))) = _
    have hall : largeDeposit.filter (·.vaultId = "vault-1") = largeDeposit := rfl
    rw [hall, sortBySequence_of_sorted hincreasing]
  have hcarries : CarriesAmounts largeDeposit := by
    unfold CarriesAmounts
    decide
  refine ⟨_, hread, by decide, hcarries, replay_of_none ⟨hread, hincreasing⟩ rfl, ?_, by decide⟩
  decide

end Heirloom.Backend
