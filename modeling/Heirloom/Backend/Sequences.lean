import Heirloom.Lib.Runs
import Heirloom.Backend.EventSourcing

/-!
# Sequence numbers over restarts

The numbers of a vault come from a counter in memory that starts at 1 in every process,
while the events and their key are in the database. A process that starts on a database
with events of the vault is refused until its counter has passed them, and a number that
an earlier process had taken for an insert that failed is used after later ones.

Results:
1. `sequences_survive_restarts`: in a run every append the database could take is
   accepted, with increasing numbers, exactly if the counter of the process is above the
   stored numbers of the vault at each of them.
2. `sequences_restart`: an append after a restart that is refused.
-/

namespace Heirloom.Backend

open Runs EventLog

/-! ## Runs of the log over one database -/

/-- An append, with the cause for which the database cannot be written at the time, if
there is one. -/
structure AppendRequest where
  vaultId : String
  eventType : EventType
  data : Value
  now : Nat
  failure : Option String

inductive LogEvent
  | appended (request : AppendRequest) (result : Except EventSourcingError Nat)
  | restarted

def AppendRequest.run (r : AppendRequest) (log : EventLog) :
    Except EventSourcingError Nat × EventLog :=
  log.append r.vaultId r.eventType r.data r.now r.failure

inductive LogStep : EventLog → LogEvent → EventLog → Prop
  | appended {s : EventLog} (r : AppendRequest) :
      LogStep s (.appended r (r.run s).1) (r.run s).2
  | restarted {s : EventLog} {db : EventTable} (hdb : s.db = some db) :
      LogStep s .restarted (withDb db)

/-- The events of a vault that were accepted, newest first. -/
def accepted (v : String) : List LogEvent → List StoredEvent
  | [] => []
  | .appended r (.ok seq) :: ks =>
      if r.vaultId = v then .new v seq r.eventType r.data r.now :: accepted v ks
      else accepted v ks
  | .appended _ (.error _) :: ks => accepted v ks
  | .restarted :: ks => accepted v ks

/-- The database could take an event of the vault: it can be written, and some number of
the vault is free. -/
def Possible (s : EventLog) (r : AppendRequest) : Prop :=
  r.failure = none ∧ ∃ n < 2 ^ 64, ∀ db, s.db = some db → db.holds r.vaultId n = false

/-- An append the database could take is accepted. -/
def Accepts (s : EventLog) : LogEvent → Prop
  | .appended r result => Possible s r → ∃ seq, result = .ok seq
  | .restarted => True

/-- At an append the database could take, the counter of the process is above every stored
number of the vault. -/
def Ahead (s : EventLog) : LogEvent → Prop
  | .appended r _ => Possible s r → ∀ db, s.db = some db →
      ∀ row ∈ db.getEventsForVault r.vaultId, row.sequence < s.nextSequence r.vaultId
  | .restarted => True

/-! ## The database and the accepted events -/

section Appends

variable {s : EventLog} {db : EventTable} {r : AppendRequest} {v : String} {n : Nat}

theorem holds_iff : db.holds v n = true ↔ ∃ row ∈ db.getEventsForVault v, row.sequence = n := by
  simp only [EventTable.holds, EventTable.getEventsForVault, List.any_eq_true, List.mem_filter,
    decide_eq_true_eq, and_assoc]

/-- What an append does to the log. -/
inductive AppendEffect (s : EventLog) (db : EventTable) (r : AppendRequest) :
    Except EventSourcingError Nat → EventLog → Prop
  | refused {cause : String}
      (hcause : r.failure = none → db.holds r.vaultId (s.nextSequence r.vaultId) = true) :
      AppendEffect s db r (.error (.databaseError cause)) (s.assign r.vaultId)
  | stored {t : EventLog} (hhealthy : r.failure = none)
      (hnew : db.holds r.vaultId (s.nextSequence r.vaultId) = false)
      (hsequences : t.sequences = (s.assign r.vaultId).sequences)
      (hdb : t.db = some (db ++ [rowOf (.new r.vaultId (s.nextSequence r.vaultId) r.eventType
        r.data r.now)])) :
      AppendEffect s db r (.ok (s.nextSequence r.vaultId)) t

theorem append_effect (hdb : s.db = some db) :
    AppendEffect s db r (r.run s).1 (r.run s).2 := by
  have hassigned : (s.assign r.vaultId).db = some db := hdb
  unfold AppendRequest.run append
  simp only [hassigned]
  cases hfailure : r.failure with
  | some cause => exact .refused fun h => absurd (hfailure.symm.trans h) (Option.some_ne_none _)
  | none =>
      simp only [EventTable.appendEvent]
      cases hholds : db.holds r.vaultId (s.nextSequence r.vaultId) with
      | true =>
          simp only [rowOf, StoredEvent.new, hholds]
          exact .refused fun _ => hholds
      | false =>
          simp only [rowOf, StoredEvent.new, hholds]
          exact .stored hfailure hholds rfl rfl

end Appends

/-- The rows of every vault are its accepted events, in append order, and the counters are
`u64`s. -/
structure Stored (ks : List LogEvent) (t : EventLog) : Prop where
  db : ∃ db, t.db = some db ∧
    ∀ v, db.getEventsForVault v = (accepted v ks).reverse.map rowOf
  counter : ∀ v, t.nextSequence v < 2 ^ 64

theorem stored_withDb_nil : Stored [] (withDb []) := by
  refine ⟨⟨[], rfl, fun v => rfl⟩, fun v => ?_⟩
  show (1 : Nat) < 2 ^ 64
  decide

theorem nextSequence_assign_lt {s : EventLog} {v w : String}
    (h : ∀ v, s.nextSequence v < 2 ^ 64) : (s.assign w).nextSequence v < 2 ^ 64 := by
  by_cases hv : v = w
  · subst hv
    simp only [nextSequence, assign, Function.update_self, Option.getD_some]
    exact Nat.mod_lt _ (by decide)
  · simp only [nextSequence, assign, Function.update_of_ne hv]
    exact h v

theorem LogStep.stored {ks : List LogEvent} {t u : EventLog} {k : LogEvent} (h : Stored ks t)
    (hk : LogStep t k u) : Stored (k :: ks) u := by
  obtain ⟨⟨db, hdb, hrows⟩, hcounter⟩ := h
  cases hk with
  | restarted hdb' =>
      obtain rfl := Option.some.inj (hdb'.symm.trans hdb)
      exact ⟨⟨_, rfl, hrows⟩, fun v => stored_withDb_nil.counter v⟩
  | appended r =>
      have heffect := append_effect (r := r) hdb
      generalize (r.run t).1 = result at heffect ⊢
      generalize (r.run t).2 = u at heffect ⊢
      cases heffect with
      | refused => exact ⟨⟨db, hdb, hrows⟩, fun v => nextSequence_assign_lt hcounter⟩
      | stored hhealthy hnew hsequences hdb' =>
          refine ⟨⟨_, hdb', fun v => ?_⟩, fun v => ?_⟩
          · have hrest := hrows v
            unfold EventTable.getEventsForVault at hrest ⊢
            rw [List.filter_append, hrest]
            by_cases hv : r.vaultId = v
            · subst hv
              simp [accepted, rowOf, StoredEvent.new]
            · simp [accepted, rowOf, StoredEvent.new, hv]
          · have hnext := nextSequence_assign_lt (v := v) (w := r.vaultId) hcounter
            rwa [nextSequence, ← hsequences] at hnext

theorem stored_of_run {ks : List LogEvent} {t : EventLog} (h : Run LogStep (withDb []) ks t) :
    Stored ks t :=
  h.invariantHistory stored_withDb_nil fun _ _ _ _ ht hk => hk.stored ht

/-! ## The numbers of a run -/

/-- The numbers of the accepted events of a vault increase in append order. -/
def InOrder (v : String) (ks : List LogEvent) : Prop :=
  (accepted v ks).Pairwise fun later earlier => earlier.sequence < later.sequence

/-- A run as the log promises it: what the database could take was accepted, and the
accepted events of every vault are read back once each, with increasing numbers. -/
structure Sequenced (ks : List LogEvent) (t : EventLog) : Prop where
  accepts : Run (Guarded LogStep Accepts) (withDb []) ks t
  inOrder : ∀ v, InOrder v ks
  read : ∀ v, t.eventsForVault v = .ok (accepted v ks).reverse

theorem eventsForVault_of_inOrder {ks : List LogEvent} {t : EventLog} {v : String}
    (h : Stored ks t) (hv : InOrder v ks) : t.eventsForVault v = .ok (accepted v ks).reverse := by
  obtain ⟨db, hdb, hrows⟩ := h.db
  unfold eventsForVault
  simp only [hdb, hrows, mapM_eventOf]
  show Except.ok (sortBySequence _) = _
  rw [sortBySequence_of_sorted]
  exact List.pairwise_reverse.mpr hv

/-- The stored numbers of a vault are those of its accepted events. -/
theorem stored_row_iff {ks : List LogEvent} {t : EventLog} {db : EventTable} {v : String}
    (h : Stored ks t) (hdb : t.db = some db) {n : Nat} :
    (∃ row ∈ db.getEventsForVault v, row.sequence = n) ↔
      ∃ e ∈ accepted v ks, e.sequence = n := by
  obtain ⟨db', hdb', hrows⟩ := h.db
  obtain rfl := Option.some.inj (hdb.symm.trans hdb')
  rw [hrows]
  constructor
  · rintro ⟨row, hrow, rfl⟩
    obtain ⟨e, he, rfl⟩ := List.mem_map.mp hrow
    exact ⟨e, List.mem_reverse.mp he, rfl⟩
  · rintro ⟨e, he, rfl⟩
    exact ⟨rowOf e, List.mem_map_of_mem (List.mem_reverse.mpr he), rfl⟩

theorem InOrder.of_cons {v : String} {k : LogEvent} {ks : List LogEvent}
    (h : InOrder v (k :: ks)) : InOrder v ks := by
  unfold InOrder at h ⊢
  cases k with
  | restarted => exact h
  | appended r result =>
      cases result with
      | error e => exact h
      | ok seq =>
          simp only [accepted] at h
          split at h
          · exact (List.pairwise_cons.mp h).2
          · exact h

/-- An append that is ahead of the stored numbers keeps the order and is accepted. -/
theorem ahead_step {ks : List LogEvent} {t u : EventLog} {k : LogEvent} (h : Stored ks t)
    (hk : LogStep t k u) (hahead : Ahead t k) (horder : ∀ v, InOrder v ks) :
    Accepts t k ∧ ∀ v, InOrder v (k :: ks) := by
  obtain ⟨db, hdb, hrows⟩ := h.db
  cases hk with
  | restarted => exact ⟨trivial, horder⟩
  | appended r =>
      have heffect := append_effect (r := r) hdb
      generalize (r.run t).1 = result at heffect hahead ⊢
      generalize (r.run t).2 = u at heffect
      cases heffect with
      | refused hcause =>
          refine ⟨fun hpossible => ?_, horder⟩
          -- the number is stored, so the counter is not ahead of it
          obtain ⟨row, hrow, hseq⟩ := holds_iff.mp (hcause hpossible.1)
          exact absurd (hahead hpossible db hdb row hrow) (Nat.not_lt.mpr hseq.ge)
      | stored hhealthy hnew hsequences hdb' =>
          refine ⟨fun _ => ⟨_, rfl⟩, fun v => ?_⟩
          have hpossible : Possible t r := by
            refine ⟨hhealthy, _, h.counter r.vaultId, fun db' hdb'' => ?_⟩
            obtain rfl := Option.some.inj (hdb''.symm.trans hdb)
            exact hnew
          by_cases hv : r.vaultId = v
          · subst hv
            simp only [InOrder, accepted, if_pos]
            refine List.pairwise_cons.mpr ⟨fun e he => ?_, horder _⟩
            obtain ⟨row, hrow, hseq⟩ := (stored_row_iff h hdb).mpr ⟨e, he, rfl⟩
            exact hseq ▸ hahead hpossible db hdb row hrow
          · simp only [InOrder, accepted, if_neg hv]
            exact horder v

/-- An append that is accepted in order was ahead of the stored numbers. -/
theorem ahead_of_inOrder {ks : List LogEvent} {t u : EventLog} {k : LogEvent} (h : Stored ks t)
    (hk : LogStep t k u) (haccepts : Accepts t k) (horder : ∀ v, InOrder v (k :: ks)) :
    Ahead t k := by
  cases hk with
  | restarted => trivial
  | appended r =>
      intro hpossible db hdb row hrow
      have heffect := append_effect (r := r) hdb
      obtain ⟨seq, hseq⟩ := haccepts hpossible
      simp only [hseq] at heffect horder
      generalize (r.run t).2 = u at heffect
      cases heffect with
      | stored hhealthy hnew hsequences hdb' =>
          obtain ⟨e, he, hrowseq⟩ := (stored_row_iff h hdb).mp ⟨row, hrow, rfl⟩
          have hpairwise := horder r.vaultId
          simp only [InOrder, accepted, if_pos] at hpairwise
          exact hrowseq ▸ (List.pairwise_cons.mp hpairwise).1 e he

theorem sequenced_of_ahead {ks : List LogEvent} {t : EventLog}
    (h : Run (Guarded LogStep Ahead) (withDb []) ks t) :
    Run (Guarded LogStep Accepts) (withDb []) ks t ∧ ∀ v, InOrder v ks := by
  induction h with
  | start => exact ⟨.start, fun v => .nil⟩
  | next hrun hk ih =>
      obtain ⟨haccepts, horder⟩ := ahead_step (stored_of_run hrun.unguard) hk.1 hk.2 ih.2
      exact ⟨.next ih.1 ⟨hk.1, haccepts⟩, horder⟩

theorem ahead_of_sequenced {ks : List LogEvent} {t : EventLog}
    (h : Run (Guarded LogStep Accepts) (withDb []) ks t) (horder : ∀ v, InOrder v ks) :
    Run (Guarded LogStep Ahead) (withDb []) ks t := by
  induction h with
  | start => exact .start
  | next hrun hk ih =>
      have hahead := ahead_of_inOrder (stored_of_run hrun.unguard) hk.1 hk.2 horder
      exact .next (ih fun v => (horder v).of_cons) ⟨hk.1, hahead⟩

/-- The log keeps its promise in exactly the runs whose counters are ahead of the database. -/
theorem sequences_survive_restarts {ks : List LogEvent} {t : EventLog}
    (h : Run LogStep (withDb []) ks t) :
    Sequenced ks t ↔ Run (Guarded LogStep Ahead) (withDb []) ks t := by
  constructor
  · intro hsequenced
    exact ahead_of_sequenced hsequenced.accepts hsequenced.inOrder
  · intro hahead
    obtain ⟨haccepts, horder⟩ := sequenced_of_ahead hahead
    exact ⟨haccepts, horder, fun v => eventsForVault_of_inOrder (stored_of_run h) (horder v)⟩

/-- A check-in of a vault the database can take. -/
def sampleRequest (v : String) : AppendRequest := ⟨v, .checkIn, .null, 0, none⟩

/-- The log after an event of a vault and a restart. -/
def restartedSample : EventLog :=
  withDb [rowOf (.new "vault-1" 1 .checkIn .null 0)]

theorem run_restartedSample : Run LogStep (withDb [])
    [.restarted, .appended (sampleRequest "vault-1") (.ok 1)] restartedSample :=
  .next (.next .start (.appended (sampleRequest "vault-1"))) (.restarted rfl)

/-- A restart between events of different vaults does no harm. -/
theorem sequences_survive_restarts_two_vaults : ∃ ks t, Run LogStep (withDb []) ks t ∧
    ks = [.appended (sampleRequest "vault-2") (.ok 1), .restarted,
      .appended (sampleRequest "vault-1") (.ok 1)] ∧ Sequenced ks t := by
  have hrun := Run.next run_restartedSample (.appended (sampleRequest "vault-2"))
  refine ⟨_, _, hrun, rfl, (sequences_survive_restarts hrun).mpr ?_⟩
  refine .next (.next (.next .start ⟨.appended (sampleRequest "vault-1"), ?_⟩)
    ⟨.restarted rfl, trivial⟩) ⟨.appended (sampleRequest "vault-2"), ?_⟩
  · rintro - db hdb row hrow
    cases hdb
    cases hrow
  · rintro - db hdb row hrow
    cases hdb
    exact absurd hrow List.not_mem_nil

/-- After a restart an event of a vault with stored events is refused. -/
theorem sequences_restart : ∃ ks t, Run LogStep (withDb []) ks t ∧ ¬ Sequenced ks t := by
  have hrun := Run.next run_restartedSample (.appended (sampleRequest "vault-1"))
  refine ⟨_, _, hrun, fun h => ?_⟩
  cases h.accepts with
  | @next _ s _ _ hbefore hk =>
      -- only the first number of the vault is stored
      have hstored := stored_of_run hbefore.unguard
      have hfree : ∀ db, s.db = some db → db.holds "vault-1" 2 = false := fun db hdb => by
        rw [← Bool.not_eq_true]
        intro hholds
        obtain ⟨e, he, hseq⟩ := (stored_row_iff hstored hdb).mp (holds_iff.mp hholds)
        exact absurd (List.mem_singleton.mp he ▸ hseq) (by decide)
      obtain ⟨seq, hseq⟩ := hk.2 ⟨rfl, 2, by decide, hfree⟩
      cases hseq

end Heirloom.Backend
