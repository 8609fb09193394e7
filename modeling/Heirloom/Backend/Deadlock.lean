import Mathlib.Algebra.Group.Nat.Defs
import Mathlib.Logic.Relation
import Mathlib.Data.List.Nodup
import Heirloom.Lib.Runs

/-!
# The deadlock detector

The detector has a table of the locks that are held, each with those who wait for it, and
refuses to let a holder wait if that would close a cycle. It looks one level deep: the
holder of the lock must itself wait for a lock of the new one.

Results:
1. `detection_exact_iff`: after any calls `acquire_lock` reports a deadlock exactly if the
   wait-for graph has a cycle through the holder, exactly if such a cycle never comes
   without one of two holders.
2. `long_cycle_missed`: a cycle of three holders that is not reported.
-/

namespace Heirloom.Backend.Deadlock

open Runs

/-! ## The detector -/

structure LockEntry where
  resource : String
  holder : String
  acquiredAt : Nat
  waiters : List String

inductive DeadlockError
  | deadlock (resources : List String)
  | timeout (resource : String) (waitedMs : Nat)
deriving DecidableEq

/-- The locks have different resources. The counter is a `u64`. -/
structure DeadlockDetector where
  activeLocks : List LockEntry
  deadlockCount : Nat

namespace DeadlockDetector

def new : DeadlockDetector := ⟨[], 0⟩

end DeadlockDetector

def getLock (locks : List LockEntry) (resource : String) : Option LockEntry :=
  locks.find? (·.resource = resource)

/-- `holder` joins those who wait for the resource. -/
def pushWaiter (locks : List LockEntry) (resource holder : String) : List LockEntry :=
  locks.map fun entry =>
    if entry.resource = resource then { entry with waiters := entry.waiters ++ [holder] }
    else entry

/-- Does the holder of the resource wait for anything that `newHolder` holds? -/
def checkCycleInner (locks : List LockEntry) (resource newHolder : String) : Bool :=
  let heldByNewHolder := (locks.filter (·.holder = newHolder)).map (·.resource)
  if heldByNewHolder.isEmpty then false
  else
    match getLock locks resource with
    | some currentEntry =>
        heldByNewHolder.any fun held =>
          match getLock locks held with
          | some entry => entry.waiters.contains currentEntry.holder
          | none => false
    | none => false

def acquireLock (detector : DeadlockDetector) (resource holder : String) (now : Nat) :
    Except DeadlockError Unit × DeadlockDetector :=
  let locks := detector.activeLocks
  match getLock locks resource with
  | some entry =>
      if entry.holder = holder then (.ok (), detector)
      else if checkCycleInner locks resource holder then
        (.error (.deadlock (locks.map (·.resource))),
          { detector with deadlockCount := (detector.deadlockCount + 1) % 2 ^ 64 })
      else
        (.error (.timeout resource 0),
          { detector with activeLocks := pushWaiter locks resource holder })
  | none =>
      (.ok (), { detector with activeLocks := locks ++ [⟨resource, holder, now, []⟩] })

/-- Those who wait for the lock are forgotten with it. -/
def releaseLock (detector : DeadlockDetector) (resource holder : String) : DeadlockDetector :=
  match getLock detector.activeLocks resource with
  | some entry =>
      if entry.holder = holder then
        { detector with activeLocks := detector.activeLocks.filter (·.resource ≠ resource) }
      else detector
  | none => detector

/-! ## Calls and their history -/

inductive LockEvent
  | acquired (resource holder : String) (now : Nat) (result : Except DeadlockError Unit)
  | released (resource holder : String)

inductive LockStep : DeadlockDetector → LockEvent → DeadlockDetector → Prop
  | acquire {s : DeadlockDetector} (resource holder : String) (now : Nat) :
      LockStep s (.acquired resource holder now (acquireLock s resource holder now).1)
        (acquireLock s resource holder now).2
  | release {s : DeadlockDetector} (resource holder : String) :
      LockStep s (.released resource holder) (releaseLock s resource holder)

/-- Who holds the resource after the calls, the newest first: the last to acquire it,
until it releases it. -/
def holderOf (r : String) : List LockEvent → Option String
  | [] => none
  | .acquired resource holder _ (.ok ()) :: ks =>
      if resource = r then some holder else holderOf r ks
  | .acquired _ _ _ (.error _) :: ks => holderOf r ks
  | .released resource holder :: ks =>
      if resource = r ∧ holderOf r ks = some holder then none else holderOf r ks

/-- `h` waits for the resource: from a timeout on, until it acquires the resource or the
resource is released. -/
def Waiting (r h : String) : List LockEvent → Prop
  | [] => False
  | .acquired resource holder _ (.error (.timeout _ _)) :: ks =>
      (resource = r ∧ holder = h) ∨ Waiting r h ks
  | .acquired _ _ _ (.error (.deadlock _)) :: ks => Waiting r h ks
  | .acquired resource holder _ (.ok ()) :: ks =>
      ¬ (resource = r ∧ holder = h) ∧ Waiting r h ks
  | .released resource holder :: ks =>
      ¬ (resource = r ∧ holderOf r ks = some holder) ∧ Waiting r h ks

/-- `x` waits for a resource that `y` holds. -/
def WaitsFor (ks : List LockEvent) (x y : String) : Prop :=
  ∃ r, Waiting r x ks ∧ holderOf r ks = some y

/-- The wait-for graph, with `h` waiting for the resource `r` as well. -/
def WaitsForWith (ks : List LockEvent) (r h x y : String) : Prop :=
  WaitsFor ks x y ∨ x = h ∧ holderOf r ks = some y

/-- With `h` waiting for `r`, a cycle goes through `h`. -/
def Cycle (ks : List LockEvent) (r h : String) : Prop :=
  Relation.TransGen (WaitsForWith ks r h) h h

def HeldByOther (ks : List LockEvent) (r h : String) : Prop :=
  ∃ x, holderOf r ks = some x ∧ x ≠ h

/-- The holder of `r` waits for a resource that `h` holds. -/
def DirectCycle (ks : List LockEvent) (r h : String) : Prop :=
  ∃ x, holderOf r ks = some x ∧ WaitsFor ks x h

/-- The call reports a deadlock. -/
def Reports (s : DeadlockDetector) (r h : String) (now : Nat) : Prop :=
  ∃ resources, (acquireLock s r h now).1 = .error (.deadlock resources)

/-! ## The table and the history -/

/-- The table as the history says it is. -/
structure Recorded (ks : List LockEvent) (locks : List LockEntry) : Prop where
  nodup : (locks.map (·.resource)).Nodup
  holder : ∀ r, (getLock locks r).map (·.holder) = holderOf r ks
  waiters : ∀ r h, Waiting r h ks ↔ ∃ entry, getLock locks r = some entry ∧ h ∈ entry.waiters
  apart : ∀ r entry, getLock locks r = some entry → entry.holder ∉ entry.waiters

section Table

variable {locks : List LockEntry} {entry : LockEntry} {r h : String}

theorem resource_of_get (hget : getLock locks r = some entry) : entry.resource = r := by
  simpa using List.find?_some hget

theorem mem_of_get (hget : getLock locks r = some entry) : entry ∈ locks :=
  List.mem_of_find?_eq_some hget

theorem get_of_mem (hnodup : (locks.map (·.resource)).Nodup) (hmem : entry ∈ locks) :
    getLock locks entry.resource = some entry := by
  induction locks with
  | nil => cases hmem
  | cons first rest ih =>
      obtain ⟨hfirst, hrest⟩ := List.nodup_cons.mp hnodup
      unfold getLock
      rcases List.mem_cons.mp hmem with rfl | hmem
      · simp
      · have hne : ¬ first.resource = entry.resource := fun heq =>
          hfirst (List.mem_map.mpr ⟨entry, hmem, heq.symm⟩)
        rw [List.find?_cons_of_neg (by simpa using hne)]
        exact ih hrest hmem

theorem get_pushWaiter (r' : String) : getLock (pushWaiter locks r h) r' =
    (getLock locks r').map fun entry =>
      if r' = r then { entry with waiters := entry.waiters ++ [h] } else entry := by
  induction locks with
  | nil => rfl
  | cons first rest ih =>
      unfold getLock pushWaiter at ih ⊢
      rw [List.map_cons]
      by_cases heq : first.resource = r'
      · subst heq
        by_cases hr : first.resource = r <;> simp [hr]
      · have hkept : (if first.resource = r then
            { first with waiters := first.waiters ++ [h] } else first).resource = first.resource := by
          split <;> rfl
        rw [List.find?_cons_of_neg (by simpa [hkept] using heq),
          List.find?_cons_of_neg (by simpa using heq)]
        exact ih

theorem map_resource_pushWaiter :
    (pushWaiter locks r h).map (·.resource) = locks.map (·.resource) := by
  unfold pushWaiter
  rw [List.map_map]
  refine List.map_congr_left fun entry _ => ?_
  show (if entry.resource = r then _ else entry).resource = entry.resource
  split <;> rfl

theorem get_filter_ne (r' : String) : getLock (locks.filter (·.resource ≠ r)) r' =
    if r' = r then none else getLock locks r' := by
  unfold getLock
  rw [List.find?_filter]
  by_cases hr : r' = r
  · subst hr
    rw [if_pos rfl, List.find?_eq_none]
    intro entry _ hentry
    simp at hentry
  · rw [if_neg hr]
    congr 1
    funext entry
    rw [Bool.eq_iff_iff]
    simp only [ne_eq, decide_not, Bool.not_eq_true', decide_eq_false_iff_not, decide_eq_true_eq]
    exact ⟨fun h => h.2, fun h => ⟨h ▸ hr, h⟩⟩

theorem get_append_new {now : Nat} (hfree : getLock locks r = none) (r' : String) :
    getLock (locks ++ [⟨r, h, now, []⟩]) r' =
      if r' = r then some ⟨r, h, now, []⟩ else getLock locks r' := by
  unfold getLock at hfree ⊢
  rw [List.find?_append]
  by_cases hr : r' = r
  · subst hr
    rw [hfree]
    simp
  · have hne : ¬ r = r' := fun heq => hr heq.symm
    rw [if_neg hr]
    simp [hne]

end Table

/-! ## What the calls do -/

section Calls

variable {s t : DeadlockDetector} {r h : String} {now : Nat} {ks : List LockEvent} {k : LockEvent}

/-- The branches of `acquire_lock`. -/
inductive AcquireEffect (s : DeadlockDetector) (r h : String) (now : Nat) :
    Except DeadlockError Unit × DeadlockDetector → Prop
  | reentrant {entry : LockEntry} (hget : getLock s.activeLocks r = some entry)
      (hholder : entry.holder = h) : AcquireEffect s r h now (.ok (), s)
  | deadlock {entry : LockEntry} (hget : getLock s.activeLocks r = some entry)
      (hholder : entry.holder ≠ h) (hcycle : checkCycleInner s.activeLocks r h = true) :
      AcquireEffect s r h now (.error (.deadlock (s.activeLocks.map (·.resource))),
        { s with deadlockCount := (s.deadlockCount + 1) % 2 ^ 64 })
  | timeout {entry : LockEntry} (hget : getLock s.activeLocks r = some entry)
      (hholder : entry.holder ≠ h) (hcycle : checkCycleInner s.activeLocks r h = false) :
      AcquireEffect s r h now (.error (.timeout r 0),
        { s with activeLocks := pushWaiter s.activeLocks r h })
  | free (hget : getLock s.activeLocks r = none) :
      AcquireEffect s r h now
        (.ok (), { s with activeLocks := s.activeLocks ++ [⟨r, h, now, []⟩] })

theorem acquireLock_effect (s : DeadlockDetector) (r h : String) (now : Nat) :
    AcquireEffect s r h now (acquireLock s r h now) := by
  cases hget : getLock s.activeLocks r with
  | none =>
      simp only [acquireLock, hget]
      exact .free hget
  | some entry =>
      by_cases hholder : entry.holder = h
      · simp only [acquireLock, hget, if_pos hholder]
        exact .reentrant hget hholder
      · cases hcycle : checkCycleInner s.activeLocks r h with
        | true =>
            simp only [acquireLock, hget, if_neg hholder, hcycle]
            exact .deadlock hget hholder hcycle
        | false =>
            simp only [acquireLock, hget, if_neg hholder, hcycle]
            exact .timeout hget hholder hcycle

theorem recorded_nil : Recorded [] [] := by
  refine ⟨List.nodup_nil, fun _ => rfl, fun r h => ?_, fun _ _ hget => by cases hget⟩
  refine iff_of_false id ?_
  rintro ⟨_, hget, -⟩
  cases hget

/-- The table after an `acquire_lock`. -/
theorem Recorded.acquire (hrec : Recorded ks s.activeLocks) :
    Recorded (.acquired r h now (acquireLock s r h now).1 :: ks)
      (acquireLock s r h now).2.activeLocks := by
  have heffect := acquireLock_effect s r h now
  generalize acquireLock s r h now = result at heffect
  cases heffect with
  | @reentrant entry hget hholder =>
      refine ⟨hrec.nodup, fun r' => ?_, fun r' h' => ?_, hrec.apart⟩
      · simp only [holderOf]
        split
        · next heq =>
          subst heq
          rw [hget, Option.map_some, hholder]
        · exact hrec.holder r'
      · -- the holder of a lock does not wait for it
        rw [Waiting, hrec.waiters]
        refine and_iff_right_of_imp ?_
        rintro ⟨entry', hget', hwaits⟩ ⟨rfl, rfl⟩
        obtain rfl := Option.some.inj (hget.symm.trans hget')
        exact hrec.apart r entry hget (hholder ▸ hwaits)
  | deadlock hget hholder hcycle => exact ⟨hrec.nodup, hrec.holder, hrec.waiters, hrec.apart⟩
  | @timeout entry hget hholder hcycle =>
      refine ⟨?_, fun r' => ?_, fun r' h' => ?_, fun r' entry' hget' => ?_⟩
      · show ((pushWaiter s.activeLocks r h).map (·.resource)).Nodup
        rw [map_resource_pushWaiter]
        exact hrec.nodup
      · show _ = holderOf r' ks
        rw [← hrec.holder, get_pushWaiter, Option.map_map]
        congr 1
        funext entry
        show (if r' = r then _ else entry).holder = entry.holder
        split <;> rfl
      · rw [Waiting, hrec.waiters]
        show _ ↔ ∃ entry, getLock (pushWaiter s.activeLocks r h) r' = some entry ∧ _
        rw [get_pushWaiter]
        by_cases hr : r' = r
        · subst hr
          rw [hget]
          simp [or_comm, eq_comm]
        · have hne : ¬ r = r' := fun heq => hr heq.symm
          simp [hr, hne]
      · show entry'.holder ∉ entry'.waiters
        change getLock (pushWaiter s.activeLocks r h) r' = some entry' at hget'
        rw [get_pushWaiter] at hget'
        obtain ⟨old, hold, rfl⟩ := Option.map_eq_some_iff.mp hget'
        split
        · next hr =>
          subst hr
          obtain rfl := Option.some.inj (hget.symm.trans hold)
          intro hmem
          rcases List.mem_append.mp hmem with hmem | hmem
          · exact hrec.apart r' entry hget hmem
          · exact hholder (List.mem_singleton.mp hmem)
        · exact hrec.apart r' old hold
  | free hget =>
      refine ⟨?_, fun r' => ?_, fun r' h' => ?_, fun r' entry' hget' => ?_⟩
      · rw [List.map_append, List.nodup_append]
        refine ⟨hrec.nodup, List.nodup_singleton _, ?_⟩
        rintro x hx y hy rfl
        obtain ⟨entry, hentry, rfl⟩ := List.mem_map.mp hx
        have hsome := get_of_mem hrec.nodup hentry
        rw [List.map_singleton, List.mem_singleton] at hy
        rw [hy, hget] at hsome
        cases hsome
      · show (getLock (s.activeLocks ++ [⟨r, h, now, []⟩]) r').map _ = holderOf r' _
        rw [get_append_new hget, holderOf]
        by_cases hr : r' = r
        · subst hr
          simp
        · have hne : ¬ r = r' := fun heq => hr heq.symm
          rw [if_neg hr, if_neg hne]
          exact hrec.holder r'
      · rw [Waiting, hrec.waiters]
        show _ ↔ ∃ entry, getLock (s.activeLocks ++ [⟨r, h, now, []⟩]) r' = some entry ∧ _
        rw [get_append_new hget]
        by_cases hr : r' = r
        · subst hr
          simp [hget]
        · have hne : ¬ r = r' := fun heq => hr heq.symm
          simp [hr, hne]
      · change getLock (s.activeLocks ++ [⟨r, h, now, []⟩]) r' = some entry' at hget'
        rw [get_append_new hget] at hget'
        split at hget'
        · cases hget'
          exact List.not_mem_nil
        · exact hrec.apart r' entry' hget'

/-- The table after a `release_lock`. -/
theorem Recorded.release (hrec : Recorded ks s.activeLocks) :
    Recorded (.released r h :: ks) (releaseLock s r h).activeLocks := by
  by_cases hheld : holderOf r ks = some h
  · have hremoved : (releaseLock s r h).activeLocks =
        s.activeLocks.filter (·.resource ≠ r) := by
      obtain ⟨entry, hget, hholder⟩ := Option.map_eq_some_iff.mp ((hrec.holder r).trans hheld)
      simp only [releaseLock, hget, if_pos hholder]
    rw [hremoved]
    refine ⟨hrec.nodup.sublist (List.Sublist.map _ List.filter_sublist), fun r' => ?_,
      fun r' h' => ?_, fun r' entry hget => ?_⟩
    · rw [get_filter_ne, holderOf]
      by_cases hr : r' = r
      · subst hr
        simp [hheld]
      · have hne : ¬ (r = r' ∧ holderOf r' ks = some h) := fun heq => hr heq.1.symm
        rw [if_neg hr, if_neg hne]
        exact hrec.holder r'
    · rw [get_filter_ne, Waiting, hrec.waiters]
      by_cases hr : r' = r
      · subst hr
        simp [hheld]
      · have hne : ¬ r = r' := fun heq => hr heq.symm
        simp [hr, hne]
    · rw [get_filter_ne] at hget
      split at hget
      · cases hget
      · exact hrec.apart r' entry hget
  · have hsame : (releaseLock s r h).activeLocks = s.activeLocks := by
      unfold releaseLock
      cases hget : getLock s.activeLocks r with
      | none => rfl
      | some entry =>
          have hne : entry.holder ≠ h := fun heq => hheld (by
            rw [← hrec.holder, hget, Option.map_some, heq])
          simp only [if_neg hne]
    rw [hsame]
    have hnot : ∀ r', ¬ (r = r' ∧ holderOf r' ks = some h) := by
      rintro _ ⟨rfl, hheld'⟩
      exact hheld hheld'
    refine ⟨hrec.nodup, fun r' => ?_, fun r' h' => ?_, hrec.apart⟩
    · rw [holderOf, if_neg (hnot r')]
      exact hrec.holder r'
    · rw [Waiting, hrec.waiters]
      exact and_iff_right (hnot r')

theorem recorded_of_run (hrun : Run LockStep .new ks s) : Recorded ks s.activeLocks := by
  refine hrun.invariantHistory (I := fun ks s => Recorded ks s.activeLocks) recorded_nil
    fun ks t k u ht hk => ?_
  cases hk with
  | acquire r h now => exact ht.acquire
  | release r h => exact ht.release

/-! ## Detection -/

/-- The check looks for cycles of two holders. -/
theorem checkCycleInner_iff (hrec : Recorded ks s.activeLocks) :
    checkCycleInner s.activeLocks r h = true ↔ DirectCycle ks r h := by
  constructor
  · intro hcheck
    unfold checkCycleInner at hcheck
    dsimp only at hcheck
    split at hcheck
    · cases hcheck
    · cases hget : getLock s.activeLocks r with
      | none => simp [hget] at hcheck
      | some entry =>
          simp only [hget, List.any_eq_true] at hcheck
          obtain ⟨held, hheld, hwaits⟩ := hcheck
          obtain ⟨own, hown, rfl⟩ := List.mem_map.mp hheld
          obtain ⟨hmem, hholder⟩ := List.mem_filter.mp hown
          have hgetOwn := get_of_mem hrec.nodup hmem
          simp only [hgetOwn, List.contains_iff_mem] at hwaits
          refine ⟨entry.holder, by rw [← hrec.holder, hget]; rfl, own.resource, ?_, ?_⟩
          · exact (hrec.waiters _ _).mpr ⟨own, hgetOwn, hwaits⟩
          · rw [← hrec.holder, hgetOwn, Option.map_some, of_decide_eq_true hholder]
  · rintro ⟨x, hx, r', hwaits, hheld⟩
    rw [← hrec.holder] at hx hheld
    obtain ⟨entry, hget, rfl⟩ := Option.map_eq_some_iff.mp hx
    obtain ⟨own, hgetOwn, hholder⟩ := Option.map_eq_some_iff.mp hheld
    obtain ⟨own', hgetOwn', hmem⟩ := (hrec.waiters _ _).mp hwaits
    obtain rfl := Option.some.inj (hgetOwn.symm.trans hgetOwn')
    have hlisted : own.resource ∈
        (s.activeLocks.filter (·.holder = h)).map (·.resource) :=
      List.mem_map_of_mem (List.mem_filter.mpr ⟨mem_of_get hgetOwn, by simpa using hholder⟩)
    unfold checkCycleInner
    dsimp only
    rw [if_neg (by simpa using List.ne_nil_of_mem hlisted)]
    simp only [hget, List.any_eq_true]
    refine ⟨own.resource, hlisted, ?_⟩
    simp only [resource_of_get hgetOwn, hgetOwn, List.contains_iff_mem]
    exact hmem

theorem reports_iff (hrec : Recorded ks s.activeLocks) :
    Reports s r h now ↔ HeldByOther ks r h ∧ DirectCycle ks r h := by
  unfold Reports HeldByOther
  rw [← checkCycleInner_iff hrec, ← hrec.holder]
  have heffect := acquireLock_effect s r h now
  generalize acquireLock s r h now = result at heffect
  cases heffect with
  | reentrant hget hholder =>
      refine iff_of_false (fun ⟨_, hresult⟩ => by cases hresult) ?_
      rintro ⟨⟨x, hx, hne⟩, -⟩
      rw [hget] at hx
      exact hne ((Option.some.inj hx).symm.trans hholder)
  | deadlock hget hholder hcycle =>
      refine iff_of_true ⟨_, rfl⟩ ⟨⟨_, ?_, hholder⟩, hcycle⟩
      rw [hget]
      rfl
  | timeout hget hholder hcycle =>
      refine iff_of_false (fun ⟨_, hresult⟩ => by cases hresult) ?_
      rintro ⟨-, hdirect⟩
      exact Bool.false_ne_true (hcycle.symm.trans hdirect)
  | free hget =>
      refine iff_of_false (fun ⟨_, hresult⟩ => by cases hresult) ?_
      rintro ⟨⟨x, hx, -⟩, -⟩
      rw [hget] at hx
      cases hx

/-- Two holders that wait for each other are on a cycle. -/
theorem DirectCycle.cycle (hdirect : DirectCycle ks r h) : Cycle ks r h := by
  obtain ⟨x, hx, hwaits⟩ := hdirect
  exact .tail (.single (.inr ⟨rfl, hx⟩)) (.inl hwaits)

/-- A deadlock is reported exactly if there is one, exactly if a cycle through the holder
never comes without one of two holders. -/
theorem detection_exact_iff (hrun : Run LockStep .new ks s) (r h : String) (now : Nat) :
    (Reports s r h now ↔ HeldByOther ks r h ∧ Cycle ks r h) ↔
      (HeldByOther ks r h → Cycle ks r h → DirectCycle ks r h) := by
  rw [reports_iff (recorded_of_run hrun)]
  constructor
  · exact fun hiff hother hcycle => (hiff.mpr ⟨hother, hcycle⟩).2
  · intro hdirect
    constructor
    · exact fun hreport => ⟨hreport.1, hreport.2.cycle⟩
    · exact fun hdead => ⟨hdead.1, hdirect hdead.1 hdead.2⟩

end Calls

/-- An acquisition that succeeds, and one that times out. -/
def gets (r h : String) : LockEvent := .acquired r h 0 (.ok ())
def waits (r h : String) : LockEvent := .acquired r h 0 (.error (.timeout r 0))

/-- A holds a and waits for b, which B holds; then B asks for a. -/
theorem detection_exact_two_holders : ∃ ks s, Run LockStep .new ks s ∧
    DirectCycle ks "a" "B" ∧ (Reports s "a" "B" 0 ↔ HeldByOther ks "a" "B" ∧ Cycle ks "a" "B") := by
  have hrun : Run LockStep .new [waits "b" "A", gets "b" "B", gets "a" "A"] _ :=
    .next (.next (.next .start (.acquire "a" "A" 0)) (.acquire "b" "B" 0)) (.acquire "b" "A" 0)
  have hdirect : DirectCycle [waits "b" "A", gets "b" "B", gets "a" "A"] "a" "B" :=
    ⟨"A", by decide, "b", .inl ⟨rfl, rfl⟩, by decide⟩
  exact ⟨_, _, hrun, hdirect, (detection_exact_iff hrun "a" "B" 0).mpr fun _ _ => hdirect⟩

/-- A waits for b, B for c, and C asks for a: the cycle has three holders, and C is told to
wait. -/
theorem long_cycle_missed : ∃ ks s, Run LockStep .new ks s ∧
    HeldByOther ks "a" "C" ∧ Cycle ks "a" "C" ∧ ¬ Reports s "a" "C" 0 := by
  have hrun : Run LockStep .new
      [waits "c" "B", waits "b" "A", gets "c" "C", gets "b" "B", gets "a" "A"] _ :=
    .next (.next (.next (.next (.next .start (.acquire "a" "A" 0)) (.acquire "b" "B" 0))
      (.acquire "c" "C" 0)) (.acquire "b" "A" 0)) (.acquire "c" "B" 0)
  refine ⟨_, _, hrun, ⟨"A", by decide, by decide⟩, ?_, ?_⟩
  · refine .tail (.tail (.single (.inr ⟨rfl, by decide⟩)) (.inl ⟨"b", .inr (.inl ⟨rfl, rfl⟩), ?_⟩))
      (.inl ⟨"c", .inl ⟨rfl, rfl⟩, ?_⟩) <;> decide
  · rintro ⟨resources, hresources⟩
    cases hresources

end Heirloom.Backend.Deadlock
