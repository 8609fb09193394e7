import Mathlib.Algebra.Group.Nat.Defs
import Mathlib.Data.List.Basic
import Heirloom.Lib.Replaced
import Heirloom.Lib.Runs

/-!
# The version history of feature flags

An update of a flag reads it, writes what it has read to the history and overwrites the flag:
three statements, without a transaction around them. Any number of instances share the
database.

Results:
1. `flag_history_complete`: the versions are counted through and the history has every former
   one, as long as no update reads a flag that another one is about to overwrite, and none is
   broken off after it has written to the history.
2. `doubled_version`: two updates that make the same version.
-/

namespace Heirloom.Backend.FeatureFlags

open Runs Replaced

/-! ## The tables -/

/-- The largest version, a `u32`. -/
def u32Max : Nat := 2 ^ 32 - 1

structure FlagVersionSnapshot where
  version : Nat
  enabled : Bool
  rolloutPercentage : UInt8
  updatedAt : Nat
  updatedBy : Option String
deriving DecidableEq

/-- A row of `feature_flags`. -/
structure FlagRow where
  key : String
  description : Option String
  enabled : Bool
  rolloutPercentage : UInt8
  version : Nat
  createdAt : Nat
  updatedAt : Nat
deriving DecidableEq

structure FeatureFlag extends FlagRow where
  history : List FlagVersionSnapshot
deriving DecidableEq

/-- A row of `feature_flag_history`. -/
structure HistoryRow where
  flagKey : String
  snapshot : FlagVersionSnapshot

/-- The keys of the flags are different, the rows of the history are in the order of their ids.
Numbers and booleans are stored as they are, though in columns of `i64`. -/
structure Database where
  featureFlags : List FlagRow
  featureFlagHistory : List HistoryRow

namespace Database

def empty : Database := ⟨[], []⟩

def selectFlag (db : Database) (key : String) : Option FlagRow :=
  db.featureFlags.find? (·.key = key)

/-- `get_feature_flag_history` -/
def selectHistory (db : Database) (key : String) : List FlagVersionSnapshot :=
  (db.featureFlagHistory.filter (·.flagKey = key)).map (·.snapshot)

/-- The primary key refuses a second row. -/
def insertFlag (db : Database) (row : FlagRow) : Option Database :=
  if (db.selectFlag row.key).isSome then none
  else some { db with featureFlags := db.featureFlags ++ [row] }

def insertHistory (db : Database) (row : HistoryRow) : Database :=
  { db with featureFlagHistory := db.featureFlagHistory ++ [row] }

/-- Overwrites a flag but for its key and the time of its creation. -/
def updateFlag (db : Database) (row : FlagRow) : Database :=
  { db with featureFlags := db.featureFlags.map fun old =>
      if old.key = row.key then { row with createdAt := old.createdAt } else old }

end Database

/-! ## `upsert_feature_flag` -/

structure UpsertFlagRequest where
  key : String
  description : Option String
  enabled : Bool
  rolloutPercentage : UInt8
  updatedBy : Option String
deriving DecidableEq

inductive UpsertError
  /-- The version does not fit into a `u32`. -/
  | overflow
  | sql
deriving DecidableEq

/-- The statement that a call comes to next, with what it has read. -/
inductive Stage
  | selectFlag
  | selectHistory (existing : FlagRow)
  | insertHistory (existing : FeatureFlag)
  | update (existing : FeatureFlag)
  | selectUpdated (existing : FeatureFlag)
  | insertFlag
  | done (result : Except UpsertError FeatureFlag)

structure UpsertCall where
  req : UpsertFlagRequest
  now : Nat
  stage : Stage

/-- The state of a flag that an update is going to replace. -/
def FeatureFlag.snapshot (existing : FeatureFlag) (updatedBy : Option String) :
    FlagVersionSnapshot :=
  ⟨existing.version, existing.enabled, existing.rolloutPercentage, existing.updatedAt, updatedBy⟩

/-- The flag after an update of `existing`. -/
def UpsertFlagRequest.updated (req : UpsertFlagRequest) (now : Nat) (existing : FlagRow) :
    FlagRow where
  key := req.key
  description := req.description.or existing.description
  enabled := req.enabled
  rolloutPercentage := req.rolloutPercentage
  version := existing.version + 1
  createdAt := existing.createdAt
  updatedAt := now

/-- The first version of a flag. -/
def UpsertFlagRequest.created (req : UpsertFlagRequest) (now : Nat) : FlagRow :=
  ⟨req.key, req.description, req.enabled, req.rolloutPercentage, 1, now, now⟩

/-- One statement of a call, and the code up to the next one. -/
def UpsertCall.statement (c : UpsertCall) (db : Database) : Database × Stage :=
  match c.stage with
  | .selectFlag =>
      match db.selectFlag c.req.key with
      | some existing => (db, .selectHistory existing)
      | none => (db, .insertFlag)
  | .selectHistory existing =>
      (db, .insertHistory { existing with history := db.selectHistory existing.key })
  | .insertHistory existing =>
      (db.insertHistory ⟨existing.key, existing.snapshot c.req.updatedBy⟩,
        if existing.version < u32Max then .update existing else .done (.error .overflow))
  | .update existing =>
      (db.updateFlag (c.req.updated c.now existing.toFlagRow), .selectUpdated existing)
  | .selectUpdated existing =>
      (db, .done (.ok { c.req.updated c.now existing.toFlagRow with
        history := db.selectHistory c.req.key }))
  | .insertFlag =>
      match db.insertFlag (c.req.created c.now) with
      | some db' => (db', .done (.ok { c.req.created c.now with history := [] }))
      | none => (db, .done (.error .sql))
  | .done result => (db, .done result)

/-- The database and the calls under way. -/
structure World where
  db : Database
  calls : List UpsertCall

inductive Label
  | call (req : UpsertFlagRequest) (now : Nat)
  | statement (c : UpsertCall)
  | fail (c : UpsertCall)
  | ret (req : UpsertFlagRequest) (result : Except UpsertError FeatureFlag)

/-- Calls take turns, statement by statement. A statement may fail, which ends the call. -/
inductive Step : World → Label → World → Prop
  | call {w : World} {req : UpsertFlagRequest} {now : Nat} :
      Step w (.call req now) ⟨w.db, w.calls ++ [⟨req, now, .selectFlag⟩]⟩
  | statement {db : Database} {l₁ l₂ : List UpsertCall} {c : UpsertCall} :
      (∀ result, c.stage ≠ .done result) →
      Step ⟨db, l₁ ++ c :: l₂⟩ (.statement c)
        ⟨(c.statement db).1, l₁ ++ { c with stage := (c.statement db).2 } :: l₂⟩
  | fail {db : Database} {l₁ l₂ : List UpsertCall} {c : UpsertCall} :
      (∀ result, c.stage ≠ .done result) →
      Step ⟨db, l₁ ++ c :: l₂⟩ (.fail c)
        ⟨db, l₁ ++ { c with stage := .done (.error .sql) } :: l₂⟩
  | ret {db : Database} {l₁ l₂ : List UpsertCall} {c : UpsertCall}
      {result : Except UpsertError FeatureFlag} :
      c.stage = .done result →
      Step ⟨db, l₁ ++ c :: l₂⟩ (.ret c.req result) ⟨db, l₁ ++ l₂⟩

/-! ## When the history is complete -/

/-- The flag that the call has read and not yet overwritten. -/
def UpsertCall.updating (c : UpsertCall) (key : String) : Option FlagRow :=
  if c.req.key = key then
    match c.stage with
    | .selectHistory existing => some existing
    | .insertHistory existing | .update existing => some existing.toFlagRow
    | _ => none
  else none

/-- No update reads a flag that another one is about to overwrite; none fails once the history
has been written, be it that the versions are used up. -/
def Undisturbed (w : World) : Label → Prop
  | .statement c =>
      match c.stage with
      | .selectFlag => ∀ c' ∈ w.calls, c'.updating c.req.key = none
      | .insertHistory existing => existing.version < u32Max
      | _ => True
  | .fail c =>
      match c.stage with
      | .update _ | .selectUpdated _ => False
      | _ => True
  | _ => True

/-- What the calls for a key have returned, the newest first. -/
def results (key : String) (ks : List Label) : List FlagRow :=
  ks.filterMap fun
    | .ret req (.ok flag) => if req.key = key then some flag.toFlagRow else none
    | _ => none

/-- The version of a flag, and what was in force with it. -/
def FlagRow.inForce (row : FlagRow) : Nat × Bool × UInt8 :=
  (row.version, row.enabled, row.rolloutPercentage)

def FlagVersionSnapshot.inForce (s : FlagVersionSnapshot) : Nat × Bool × UInt8 :=
  (s.version, s.enabled, s.rolloutPercentage)

/-- The results are the versions from 1 on, in some order. The last version is stored, and the
history has the others in order. -/
def Complete (key : String) (made : List FlagRow) (db : Database) : Prop :=
  ∃ rows : List FlagRow, made.Perm rows ∧ rows.map (·.version) = List.range' 1 rows.length ∧
    db.selectFlag key = rows.getLast? ∧
    (db.selectHistory key).map (·.inForce) = rows.dropLast.map (·.inForce)

/-! ## The statements -/

section Statements

variable {db db' : Database} {key : String} {row : FlagRow}

theorem key_of_selectFlag (h : db.selectFlag key = some row) : row.key = key := by
  simpa using List.find?_some h

theorem selectFlag_insertFlag (key : String) (h : db.insertFlag row = some db') :
    db.selectFlag row.key = none ∧
      db'.selectFlag key = if row.key = key then some row else db.selectFlag key := by
  unfold Database.insertFlag at h
  split at h
  · cases h
  · next habsent =>
      obtain rfl := Option.some.inj h
      have hnone : db.selectFlag row.key = none := by simpa using habsent
      refine ⟨hnone, ?_⟩
      show (db.featureFlags ++ [row]).find? (·.key = key) = _
      rw [List.find?_append]
      by_cases hkey : row.key = key
      · subst hkey
        unfold Database.selectFlag at hnone
        simp [hnone]
      · simp [Database.selectFlag, hkey]

theorem selectHistory_insertFlag (h : db.insertFlag row = some db') :
    db'.selectHistory key = db.selectHistory key := by
  unfold Database.insertFlag at h
  split at h <;> cases h
  rfl

theorem selectHistory_insertHistory {snapshot : FlagVersionSnapshot} {flagKey : String} :
    (db.insertHistory ⟨flagKey, snapshot⟩).selectHistory key =
      db.selectHistory key ++ if flagKey = key then [snapshot] else [] := by
  by_cases hkey : flagKey = key <;>
    simp [Database.insertHistory, Database.selectHistory, hkey]

/-- An overwritten flag has its key and the time of its creation still. -/
theorem selectFlag_updateFlag : (db.updateFlag row).selectFlag key =
    (db.selectFlag key).map fun old =>
      if row.key = key then { row with createdAt := old.createdAt } else old := by
  have hkeys : ((fun r : FlagRow => decide (r.key = key)) ∘ fun old =>
      if old.key = row.key then { row with createdAt := old.createdAt } else old) =
      fun r => decide (r.key = key) := by
    funext old
    by_cases hold : old.key = row.key <;> simp [hold]
  show List.find? _ (List.map _ _) = _
  rw [List.find?_map, hkeys]
  cases hfound : db.selectFlag key with
  | none =>
      unfold Database.selectFlag at hfound
      rw [hfound]
      rfl
  | some old =>
      have hold := key_of_selectFlag hfound
      unfold Database.selectFlag at hfound
      rw [hfound]
      by_cases hrow : row.key = key <;> simp [hold, hrow, eq_comm]

end Statements

/-! ## The invariant -/

/-- The row the call has made, and not yet returned. -/
def UpsertCall.made (c : UpsertCall) (key : String) : Option FlagRow :=
  if c.req.key = key then
    match c.stage with
    | .selectUpdated existing => some (c.req.updated c.now existing.toFlagRow)
    | .done (.ok flag) => some flag.toFlagRow
    | _ => none
  else none

/-- The row that the call has written to the history, and not yet overwritten. -/
def UpsertCall.written (c : UpsertCall) (key : String) : Option FlagRow :=
  if c.req.key = key then
    match c.stage with
    | .update existing => some existing.toFlagRow
    | _ => none
  else none

/-- The versions `rows` of a flag between two statements, after results `out`: at most one call
is about to overwrite the flag, and it has read the last version. -/
structure Inv (key : String) (out : List FlagRow) (db : Database) (calls : List UpsertCall)
    (rows : List FlagRow) : Prop where
  versions : rows.map (·.version) = List.range' 1 rows.length
  stored : db.selectFlag key = rows.getLast?
  history : (db.selectHistory key).map (·.inForce) =
    (rows.dropLast ++ calls.filterMap (·.written key)).map (·.inForce)
  made : (out ++ calls.filterMap (·.made key)).Perm rows
  current : ∀ c ∈ calls, ∀ row, c.updating key = some row → rows.getLast? = some row
  single : (calls.filterMap (·.updating key)).length ≤ 1

section Invariant

variable {key : String} {out rows : List FlagRow} {db db' : Database} {l₁ l₂ : List UpsertCall}
  {c c' : UpsertCall} {row : FlagRow}

/-- A call for another key, or one that goes on without a trace. -/
theorem Inv.replace (h : Inv key out db (l₁ ++ c :: l₂) rows)
    (hflag : db'.selectFlag key = db.selectFlag key)
    (hhistory : db'.selectHistory key = db.selectHistory key)
    (hwritten : c'.written key = c.written key) (hmade : c'.made key = c.made key)
    (hupdating : c'.updating key = c.updating key) : Inv key out db' (l₁ ++ c' :: l₂) rows := by
  refine ⟨h.versions, hflag.trans h.stored, ?_, ?_, forall_replaced ?_ ?_, ?_⟩
  · rw [hhistory, h.history, filterMap_replaced (f := (UpsertCall.written · key)) hwritten]
  · rw [filterMap_replaced (f := (UpsertCall.made · key)) hmade]
    exact h.made
  · exact fun d hd => h.current d (mem_rest rfl hd)
  · rw [hupdating]
    exact h.current c (mem_middle rfl)
  · rw [filterMap_replaced (f := (UpsertCall.updating · key)) hupdating]
    exact h.single

theorem UpsertCall.updating_of_written (h : c.written key = some row) :
    c.updating key = some row := by
  unfold written at h
  unfold updating
  split at h
  · next hkey =>
      rw [if_pos hkey]
      split at h
      · next heq =>
          rw [heq]
          exact h
      · cases h
  · cases h

theorem UpsertCall.written_eq_none (h : c.updating key = none) : c.written key = none := by
  by_contra hne
  obtain ⟨row, hrow⟩ := Option.ne_none_iff_exists'.mp hne
  rw [updating_of_written hrow] at h
  cases h

/-- Without other calls that are about to overwrite the flag, the history lacks the last version
unless the call has written it. -/
theorem filterMap_written (h : ∀ d ∈ l₁ ++ l₂, d.updating key = none) :
    (l₁ ++ c :: l₂).filterMap (·.written key) = (c.written key).toList :=
  filterMap_alone fun d hd => UpsertCall.written_eq_none (h d hd)

theorem single_of_alone (h : ∀ d ∈ l₁ ++ l₂, d.updating key = none) :
    ((l₁ ++ c :: l₂).filterMap (·.updating key)).length ≤ 1 := by
  rw [filterMap_alone h]
  exact Option.length_toList_le

/-- No other call has read the flag. -/
theorem current_of_alone (h : ∀ d ∈ l₁ ++ l₂, d.updating key = none)
    (hc : ∀ row, c.updating key = some row → rows.getLast? = some row) :
    ∀ d ∈ l₁ ++ c :: l₂, ∀ row, d.updating key = some row → rows.getLast? = some row := by
  refine forall_replaced (fun d hd row hrow => ?_) hc
  rw [h d hd] at hrow
  cases hrow

/-- A call reads the flag while no other is about to overwrite it. -/
theorem Inv.reads (h : Inv key out db (l₁ ++ c :: l₂) rows)
    (hothers : ∀ d ∈ l₁ ++ c :: l₂, d.updating key = none) (hrow : db.selectFlag key = some row)
    (hwritten : c'.written key = none) (hmade : c'.made key = c.made key)
    (hupdating : c'.updating key = some row) : Inv key out db (l₁ ++ c' :: l₂) rows := by
  have hrest : ∀ d ∈ l₁ ++ l₂, d.updating key = none := fun d hd => hothers d (mem_rest rfl hd)
  have hc : c.written key = none := UpsertCall.written_eq_none (hothers c (mem_middle rfl))
  refine ⟨h.versions, h.stored, ?_, ?_, current_of_alone hrest fun row' hrow' => ?_,
    single_of_alone hrest⟩
  · rw [h.history, filterMap_written hrest, filterMap_written hrest, hc, hwritten]
  · rw [filterMap_replaced (f := (UpsertCall.made · key)) hmade]
    exact h.made
  · rw [← h.stored, hrow, ← hupdating, hrow']

/-- The version that is going to be overwritten goes to the history. -/
theorem Inv.writes (h : Inv key out db (l₁ ++ c :: l₂) rows) (hc : c.updating key = some row)
    (hunwritten : c.written key = none) (hflag : db'.selectFlag key = db.selectFlag key)
    (hhistory : (db'.selectHistory key).map (·.inForce) =
      (db.selectHistory key).map (·.inForce) ++ [row.inForce])
    (hwritten : c'.written key = some row) (hmade : c'.made key = c.made key) :
    Inv key out db' (l₁ ++ c' :: l₂) rows := by
  have hrest := alone_of_length_le (f := (UpsertCall.updating · _)) hc h.single
  have hupdating := UpsertCall.updating_of_written hwritten
  refine ⟨h.versions, hflag.trans h.stored, ?_, ?_, current_of_alone hrest fun row' hrow' => ?_,
    single_of_alone hrest⟩
  · rw [hhistory, h.history, filterMap_written hrest, filterMap_written hrest, hunwritten, hwritten,
      List.map_append, List.map_append, Option.toList_none, List.map_nil, List.append_nil]
    rfl
  · rw [filterMap_replaced (f := (UpsertCall.made · key)) hmade]
    exact h.made
  · refine h.current c (mem_middle rfl) row' ?_
    rw [hc, ← hupdating, hrow']

/-- A call makes the next version. -/
theorem Inv.makes {new : FlagRow} (h : Inv key out db (l₁ ++ c :: l₂) rows)
    (hrest : ∀ d ∈ l₁ ++ l₂, d.updating key = none)
    (hall : (rows.dropLast ++ (c.written key).toList).map (·.inForce) = rows.map (·.inForce))
    (hunmade : c.made key = none) (hflag : db'.selectFlag key = some new)
    (hhistory : db'.selectHistory key = db.selectHistory key)
    (hversion : new.version = rows.length + 1) (hmade : c'.made key = some new)
    (hupdating : c'.updating key = none) : Inv key out db' (l₁ ++ c' :: l₂) (rows ++ [new]) := by
  refine ⟨?_, ?_, ?_, ?_, current_of_alone hrest fun row' hrow' => ?_, single_of_alone hrest⟩
  · rw [List.map_append, h.versions, List.length_append, List.length_singleton,
      List.range'_concat]
    simp [hversion, Nat.add_comm]
  · simpa using hflag
  · rw [hhistory, h.history, List.dropLast_concat, filterMap_written hrest, hall,
      filterMap_written hrest, UpsertCall.written_eq_none hupdating, Option.toList_none,
      List.append_nil]
  · have hm := h.made
    simp only [List.filterMap_append, List.filterMap_cons, hunmade, hmade] at hm ⊢
    refine List.Perm.trans ?_ (hm.append_right [new])
    rw [← List.append_assoc, ← List.append_assoc]
    exact List.perm_middle.trans (List.perm_append_singleton _ _).symm
  · rw [hupdating] at hrow'
    cases hrow'

/-- A call that has not written to the history gives up. -/
theorem Inv.fails (h : Inv key out db (l₁ ++ c :: l₂) rows) (hunwritten : c.written key = none)
    (hmade : c'.made key = c.made key) (hupdating : c'.updating key = none) :
    Inv key out db (l₁ ++ c' :: l₂) rows := by
  refine ⟨h.versions, h.stored, ?_, ?_, forall_replaced ?_ fun row hrow => ?_, ?_⟩
  · rw [h.history]
    simp [hunwritten, UpsertCall.written_eq_none hupdating]
  · rw [filterMap_replaced (f := (UpsertCall.made · key)) hmade]
    exact h.made
  · exact fun d hd => h.current d (mem_rest rfl hd)
  · rw [hupdating] at hrow
    cases hrow
  · have hs := h.single
    simp only [List.filterMap_append, List.filterMap_cons, hupdating, List.length_append] at hs ⊢
    refine Nat.le_trans (Nat.add_le_add_left ?_ _) hs
    split <;> simp

/-- The last version has the number of versions. -/
theorem Inv.version_of_last {calls : List UpsertCall} (h : Inv key out db calls rows)
    (hlast : rows.getLast? = some row) : row.version = rows.length := by
  have hrows : rows.dropLast ++ [row] = rows := List.dropLast_append_getLast? row hlast
  have hversions := h.versions
  rw [← hrows, List.map_append, List.length_append, List.length_singleton,
    List.range'_concat] at hversions
  have hlength : row.version = 1 + 1 * rows.dropLast.length := by
    simpa using (List.append_inj' hversions rfl).2
  have hsum : rows.dropLast.length + 1 = rows.length := by
    simpa using congrArg List.length hrows
  omega

/-- A statement for one key is none for another. -/
theorem statement_other (db : Database) (hkey : c.req.key ≠ key)
    (hexisting : ∀ row, c.updating c.req.key = some row → row.key = c.req.key) :
    (c.statement db).1.selectFlag key = db.selectFlag key ∧
      (c.statement db).1.selectHistory key = db.selectHistory key := by
  unfold UpsertCall.statement
  cases hstage : c.stage with
  | selectFlag =>
      dsimp only
      split <;> exact ⟨rfl, rfl⟩
  | insertHistory existing =>
      have hother : existing.key ≠ key := by
        rw [hexisting existing.toFlagRow (by simp [UpsertCall.updating, hstage])]
        exact hkey
      refine ⟨rfl, ?_⟩
      dsimp only
      rw [selectHistory_insertHistory, if_neg hother, List.append_nil]
  | update existing =>
      have hother : (c.req.updated c.now existing.toFlagRow).key ≠ key := hkey
      refine ⟨?_, rfl⟩
      dsimp only
      rw [selectFlag_updateFlag]
      simp [hother]
  | insertFlag =>
      dsimp only
      split
      · next db' hinsert =>
          have hother : (c.req.created c.now).key ≠ key := hkey
          rw [(selectFlag_insertFlag key hinsert).2, if_neg hother]
          exact ⟨rfl, selectHistory_insertFlag hinsert⟩
      · exact ⟨rfl, rfl⟩
  | _ => exact ⟨rfl, rfl⟩

/-- What a statement does to the versions of its own key. -/
theorem Inv.statement (h : Inv key out db (l₁ ++ c :: l₂) rows) (hkey : c.req.key = key)
    (hundone : ∀ result, c.stage ≠ .done result)
    (hundisturbed : Undisturbed ⟨db, l₁ ++ c :: l₂⟩ (.statement c)) :
    ∃ rows, Inv key out (c.statement db).1
      (l₁ ++ { c with stage := (c.statement db).2 } :: l₂) rows := by
  subst hkey
  unfold UpsertCall.statement
  cases hstage : c.stage with
  | selectFlag =>
      simp only [Undisturbed, hstage] at hundisturbed
      dsimp only
      split
      · next existing hfound =>
          exact ⟨rows, h.reads hundisturbed hfound (by simp [UpsertCall.written])
            (by simp [UpsertCall.made, hstage]) (by simp [UpsertCall.updating])⟩
      · exact ⟨rows, h.replace rfl rfl (by simp [UpsertCall.written, hstage])
          (by simp [UpsertCall.made, hstage]) (by simp [UpsertCall.updating, hstage])⟩
  | selectHistory existing =>
      exact ⟨rows, h.replace rfl rfl (by simp [UpsertCall.written, hstage])
        (by simp [UpsertCall.made, hstage]) (by simp [UpsertCall.updating, hstage])⟩
  | insertHistory existing =>
      have hc : c.updating c.req.key = some existing.toFlagRow := by
        simp [UpsertCall.updating, hstage]
      have hexisting : existing.key = c.req.key :=
        key_of_selectFlag (h.stored.trans (h.current c (by simp) _ hc))
      simp only [Undisturbed, hstage] at hundisturbed
      refine ⟨rows, h.writes hc (by simp [UpsertCall.written, hstage]) rfl ?_ ?_
        (by simp [UpsertCall.made, hstage, hundisturbed])⟩
      · dsimp only
        rw [selectHistory_insertHistory, if_pos hexisting, List.map_append]
        rfl
      · simp [UpsertCall.written, hundisturbed]
  | update existing =>
      have hc : c.updating c.req.key = some existing.toFlagRow := by
        simp [UpsertCall.updating, hstage]
      have hlast := h.current c (by simp) _ hc
      have hrest := alone_of_length_le (f := (UpsertCall.updating · _)) hc h.single
      have hrows : rows.dropLast ++ [existing.toFlagRow] = rows :=
        List.dropLast_append_getLast? _ hlast
      refine ⟨rows ++ [c.req.updated c.now existing.toFlagRow], h.makes hrest ?_
        (by simp [UpsertCall.made, hstage]) ?_ rfl ?_ (by simp [UpsertCall.made])
        (by simp [UpsertCall.updating])⟩
      · have hwritten : c.written c.req.key = some existing.toFlagRow := by
          simp [UpsertCall.written, hstage]
        rw [hwritten, Option.toList_some, hrows]
      · dsimp only
        rw [selectFlag_updateFlag, h.stored, hlast]
        simp [UpsertFlagRequest.updated]
      · rw [← h.version_of_last hlast]
        rfl
  | selectUpdated existing =>
      exact ⟨rows, h.replace rfl rfl (by simp [UpsertCall.written, hstage])
        (by simp [UpsertCall.made, hstage]) (by simp [UpsertCall.updating, hstage])⟩
  | insertFlag =>
      dsimp only
      split
      · next db' hinsert =>
          -- there is no version yet, so that no call is about to overwrite one
          obtain ⟨hnone, hflag⟩ := selectFlag_insertFlag c.req.key hinsert
          have hempty : rows = [] := List.getLast?_eq_none_iff.mp (h.stored.symm.trans hnone)
          subst hempty
          have hothers : ∀ d ∈ l₁ ++ l₂, d.updating c.req.key = none := by
            intro d hd
            by_contra hne
            obtain ⟨row, hrow⟩ := Option.ne_none_iff_exists'.mp hne
            cases h.current d (mem_rest rfl hd) row hrow
          replace hflag := hflag.trans (if_pos rfl)
          exact ⟨[] ++ [c.req.created c.now], h.makes hothers (by simp [UpsertCall.written, hstage])
            (by simp [UpsertCall.made, hstage]) hflag (selectHistory_insertFlag hinsert) rfl
            (by simp [UpsertCall.made]) (by simp [UpsertCall.updating])⟩
      · exact ⟨rows, h.replace rfl rfl (by simp [UpsertCall.written, hstage])
          (by simp [UpsertCall.made, hstage]) (by simp [UpsertCall.updating, hstage])⟩
  | done result => exact absurd hstage (hundone result)

end Invariant

/-! ## Runs -/

/-- The versions of every flag between two statements. -/
def World.Sound (ks : List Label) (w : World) : Prop :=
  ∀ key, ∃ rows, Inv key (results key ks) w.db w.calls rows

section Runs

variable {ks : List Label} {w w' : World} {k : Label} {key : String} {db : Database}
  {l₁ l₂ : List UpsertCall} {c : UpsertCall}

theorem UpsertCall.other (stage : Stage) (hkey : c.req.key ≠ key) :
    UpsertCall.written { c with stage := stage } key = none ∧
      UpsertCall.made { c with stage := stage } key = none ∧
      UpsertCall.updating { c with stage := stage } key = none := by
  simp [written, made, updating, hkey]

theorem sound_empty : World.Sound [] ⟨.empty, []⟩ :=
  fun _ => ⟨[], rfl, rfl, rfl, .refl _, by simp, by simp⟩

theorem World.Sound.call {req : UpsertFlagRequest} {now : Nat} (h : w.Sound ks) :
    World.Sound (.call req now :: ks) ⟨w.db, w.calls ++ [⟨req, now, .selectFlag⟩]⟩ := by
  intro key
  obtain ⟨rows, hinv⟩ := h key
  refine ⟨rows, hinv.versions, hinv.stored, ?_, ?_, ?_, ?_⟩
  · rw [hinv.history]
    simp [UpsertCall.written]
  · simpa [UpsertCall.made, results] using hinv.made
  · intro d hd row hrow
    rcases List.mem_append.mp hd with hd | hd
    · exact hinv.current d hd row hrow
    · obtain rfl := List.mem_singleton.mp hd
      simp [UpsertCall.updating] at hrow
  · simpa [UpsertCall.updating] using hinv.single

theorem World.Sound.statement (h : World.Sound ks ⟨db, l₁ ++ c :: l₂⟩)
    (hundone : ∀ result, c.stage ≠ .done result)
    (hundisturbed : Undisturbed ⟨db, l₁ ++ c :: l₂⟩ (.statement c)) :
    World.Sound (.statement c :: ks)
      ⟨(c.statement db).1, l₁ ++ { c with stage := (c.statement db).2 } :: l₂⟩ := by
  intro key
  by_cases hkey : c.req.key = key
  · obtain ⟨rows, hinv⟩ := h key
    exact hinv.statement hkey hundone hundisturbed
  · obtain ⟨rows, hinv⟩ := h key
    obtain ⟨own, howninv⟩ := h c.req.key
    have hexisting : ∀ row, c.updating c.req.key = some row → row.key = c.req.key :=
      fun row hrow =>
        key_of_selectFlag (howninv.stored.trans (howninv.current c (by simp) row hrow))
    obtain ⟨hflag, hhistory⟩ := statement_other db hkey hexisting
    obtain ⟨hw, hm, hu⟩ := UpsertCall.other c.stage hkey
    obtain ⟨hw', hm', hu'⟩ := UpsertCall.other (c.statement db).2 hkey
    exact ⟨rows, hinv.replace hflag hhistory (hw'.trans hw.symm) (hm'.trans hm.symm)
      (hu'.trans hu.symm)⟩

theorem World.Sound.fail (h : World.Sound ks ⟨db, l₁ ++ c :: l₂⟩)
    (hundone : ∀ result, c.stage ≠ .done result)
    (hundisturbed : Undisturbed ⟨db, l₁ ++ c :: l₂⟩ (.fail c)) :
    World.Sound (.fail c :: ks) ⟨db, l₁ ++ { c with stage := .done (.error .sql) } :: l₂⟩ := by
  intro key
  obtain ⟨rows, hinv⟩ := h key
  refine ⟨rows, hinv.fails ?_ ?_ (by simp [UpsertCall.updating])⟩
  · unfold UpsertCall.written
    split
    · split
      · next hstage => simp [Undisturbed, hstage] at hundisturbed
      · rfl
    · rfl
  · unfold UpsertCall.made
    split
    · split
      · next hstage => cases hstage
      · next hstage => cases hstage
      · split
        · next hstage => simp [Undisturbed, hstage] at hundisturbed
        · next hstage => exact absurd hstage (hundone _)
        · rfl
    · rfl

theorem World.Sound.ret {result : Except UpsertError FeatureFlag}
    (h : World.Sound ks ⟨db, l₁ ++ c :: l₂⟩) (hdone : c.stage = .done result) :
    World.Sound (.ret c.req result :: ks) ⟨db, l₁ ++ l₂⟩ := by
  intro key
  obtain ⟨rows, hinv⟩ := h key
  have hupdating : c.updating key = none := by simp [UpsertCall.updating, hdone]
  refine ⟨rows, hinv.versions, hinv.stored, ?_, ?_,
    fun d hd => hinv.current d (mem_rest rfl hd), ?_⟩
  · rw [hinv.history]
    simp [UpsertCall.written_eq_none hupdating]
  · have hm := hinv.made
    have hresults : results key (.ret c.req result :: ks) =
        (c.made key).toList ++ results key ks := by
      cases result with
      | error err => simp [results, UpsertCall.made, hdone]
      | ok flag => by_cases hkey : c.req.key = key <;> simp [results, UpsertCall.made, hdone, hkey]
    rw [hresults]
    refine List.Perm.trans ?_ hm
    simp only [List.filterMap_append, List.filterMap_cons]
    cases c.made key with
    | none => exact .refl _
    | some row =>
        show (row :: (results key ks ++ (_ ++ _))).Perm _
        rw [← List.append_assoc, ← List.append_assoc]
        exact List.perm_middle.symm
  · simpa [hupdating] using hinv.single

/-- In every run from the empty database whose steps are undisturbed: once all calls for a key
have returned, the successful ones have made the versions from 1 on, each once, the last one is
stored, and the history has the others in order, with what was in force. -/
theorem flag_history_complete (hrun : Run (Guarded Step Undisturbed) ⟨.empty, []⟩ ks w)
    (hquiet : ∀ c ∈ w.calls, c.req.key ≠ key) : Complete key (results key ks) w.db := by
  have hsound : w.Sound ks := by
    refine hrun.invariantHistory sound_empty ?_
    rintro ks w k w' h ⟨hstep, hundisturbed⟩
    cases hstep with
    | call => exact h.call
    | statement hundone => exact h.statement hundone hundisturbed
    | fail hundone => exact h.fail hundone hundisturbed
    | ret hdone => exact h.ret hdone
  obtain ⟨rows, hinv⟩ := hsound key
  have hmade : w.calls.filterMap (·.made key) = [] := List.filterMap_eq_nil_iff.mpr fun c hc =>
    (UpsertCall.other c.stage (hquiet c hc)).2.1
  have hwritten : w.calls.filterMap (·.written key) = [] :=
    List.filterMap_eq_nil_iff.mpr fun c hc => (UpsertCall.other c.stage (hquiet c hc)).1
  refine ⟨rows, ?_, hinv.versions, hinv.stored, ?_⟩
  · simpa [hmade] using hinv.made
  · rw [hinv.history, hwritten, List.append_nil]

end Runs

/-! ## Playing a run -/

/-- A new call, or the next turn of the call at a position. -/
inductive Turn
  | call (req : UpsertFlagRequest) (now : Nat)
  | go (i : Nat)

/-- The call at `i` makes a statement, or returns. -/
def World.go (w : World) (i : Nat) : Option (Label × World) :=
  w.calls[i]?.map fun c =>
    match c.stage with
    | .done result => (.ret c.req result, ⟨w.db, w.calls.take i ++ w.calls.drop (i + 1)⟩)
    | _ => (.statement c, ⟨(c.statement w.db).1,
        w.calls.take i ++ { c with stage := (c.statement w.db).2 } :: w.calls.drop (i + 1)⟩)

def World.turn (w : World) : Turn → Option (Label × World)
  | .call req now => some (.call req now, ⟨w.db, w.calls ++ [⟨req, now, .selectFlag⟩]⟩)
  | .go i => w.go i

section Play

variable {w w' : World} {k : Label}

theorem step_of_go {i : Nat} (h : w.go i = some (k, w')) : Step w k w' := by
  obtain ⟨db, calls⟩ := w
  obtain ⟨c, hc, hgo⟩ := Option.map_eq_some_iff.mp h
  have hcalls : calls.take i ++ c :: calls.drop (i + 1) = calls := by
    obtain ⟨hi, rfl⟩ := List.getElem?_eq_some_iff.mp hc
    rw [List.getElem_cons_drop, List.take_append_drop]
  have hstep : Step ⟨db, calls.take i ++ c :: calls.drop (i + 1)⟩ k w' := by
    dsimp only at hgo
    split at hgo
    · next result hdone =>
        obtain ⟨rfl, rfl⟩ := Prod.mk.inj hgo
        exact .ret hdone
    · next hundone =>
        obtain ⟨rfl, rfl⟩ := Prod.mk.inj hgo
        exact .statement hundone
  rwa [hcalls] at hstep

theorem step_of_turn (w : World) (turn : Turn) (k : Label) (w' : World)
    (h : w.turn turn = some (k, w')) : Step w k w' := by
  cases turn with
  | call req now =>
      obtain ⟨rfl, rfl⟩ := Prod.mk.inj (Option.some.inj h)
      exact .call
  | go i => exact step_of_go h

end Play

instance (w : World) : DecidablePred (Undisturbed w) := fun k => by
  unfold Undisturbed
  cases k with
  | statement c => dsimp only; split <;> infer_instance
  | fail c => dsimp only; split <;> infer_instance
  | _ => exact .isTrue trivial

/-- A flag is created, switched on and switched off again. The third call reads the flag before
the second one has returned. -/
theorem flag_history_switched : ∃ (ks : List Label) (w : World),
    (results "new_ui" ks).map (·.version) = [3, 2, 1] ∧
      Complete "new_ui" (results "new_ui" ks) w.db := by
  let turns : List Turn := [.call ⟨"new_ui", none, false, 0, none⟩ 1, .go 0, .go 0, .go 0,
    .call ⟨"new_ui", none, true, 100, none⟩ 2, .call ⟨"new_ui", none, false, 100, none⟩ 3,
    .go 0, .go 0, .go 0, .go 0, .go 1, .go 1, .go 1, .go 1, .go 0, .go 0, .go 0, .go 0]
  have hplayed : ((play World.turn (fun w k => decide (Undisturbed w k)) ⟨.empty, []⟩ turns).any
      fun p => decide ((results "new_ui" p.1).map (·.version) = [3, 2, 1]) &&
        p.2.calls.isEmpty) = true := by decide +kernel
  rw [Option.any_eq_true] at hplayed
  obtain ⟨⟨ks, w⟩, hplay, hend⟩ := hplayed
  obtain ⟨hversions, hcalls⟩ := (Bool.and_eq_true _ _).mp hend
  have hrun : Run (Guarded Step Undisturbed) ⟨.empty, []⟩ ks w :=
    (run_of_play step_of_turn hplay).mono fun _ _ _ h => ⟨h.1, of_decide_eq_true h.2⟩
  exact ⟨ks, w, of_decide_eq_true hversions, flag_history_complete hrun fun c hc => by
    rw [List.isEmpty_iff.mp hcalls] at hc
    cases hc⟩

/-- Two instances read version 1, and both make a version 2 of it. The history then has version
1 twice, and one of the two versions 2 is lost. -/
theorem doubled_version :
    ¬ ∀ (key : String) (ks : List Label) (w : World), Run Step ⟨.empty, []⟩ ks w →
      (∀ c ∈ w.calls, c.req.key ≠ key) → Complete key (results key ks) w.db := by
  intro h
  let turns : List Turn := [.call ⟨"new_ui", none, false, 0, none⟩ 1, .go 0, .go 0, .go 0,
    .call ⟨"new_ui", none, true, 50, none⟩ 2, .call ⟨"new_ui", none, true, 100, none⟩ 2,
    .go 0, .go 1, .go 0, .go 1, .go 0, .go 1, .go 0, .go 1, .go 0, .go 1, .go 0, .go 0]
  have hplayed : ((play World.turn (fun _ _ => true) ⟨.empty, []⟩ turns).any
      fun p => decide ((results "new_ui" p.1).map (·.version) = [2, 2, 1]) &&
        p.2.calls.isEmpty) = true := by decide +kernel
  rw [Option.any_eq_true] at hplayed
  obtain ⟨⟨ks, w⟩, hplay, hend⟩ := hplayed
  obtain ⟨hversions, hcalls⟩ := (Bool.and_eq_true _ _).mp hend
  obtain ⟨rows, hperm, hcounted, -⟩ :=
    h "new_ui" ks w (run_of_play step_of_turn hplay).unguard fun c hc => by
      rw [List.isEmpty_iff.mp hcalls] at hc
      cases hc
  -- counted through, the versions would be different
  have hmade : ((results "new_ui" ks).map (·.version)).Nodup :=
    (hperm.map _).nodup_iff.mpr (hcounted ▸ List.nodup_range')
  rw [of_decide_eq_true hversions] at hmade
  revert hmade
  decide

end Heirloom.Backend.FeatureFlags
