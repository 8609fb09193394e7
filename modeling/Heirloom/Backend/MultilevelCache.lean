import Mathlib.Data.List.AList
import Mathlib.Logic.Function.Basic
import Heirloom.Lib.Runs

/-!
# The two-level cache

A vault is looked up in the first level, then in the second, from where it is copied back
into the first. Each level has its lock, and no call holds both: between the two sections of
a call other threads may change either level.

Results:
1. `get_returns_last_write`: as long as only current values are copied back, a read that
   starts after the last write returns what was written, or nothing.
2. `stale_value_promoted`: a value that is copied back after it has been replaced.
-/

namespace Heirloom.Backend.MultilevelCache

open Runs

/-! ## The levels -/

structure Entry (V : Type) where
  value : V
  insertedAt : Nat
  ttl : Nat
  accessCount : Nat
  lastAccessed : Nat

/-- Both levels are maps from vault ids. -/
abbrev Vaults (V : Type) := AList fun _ : String => Entry V

structure L1Stats where
  hits : Nat
  misses : Nat
  evictions : Nat
  insertions : Nat

structure L1Cache (V : Type) where
  vaults : Vaults V
  maxEntries : Nat
  stats : L1Stats

structure L2Stats where
  hits : Nat
  misses : Nat
  promotions : Nat
  insertions : Nat

structure L2Cache (V : Type) where
  vaults : Vaults V
  stats : L2Stats

structure MultiLevelCache (V : Type) where
  l1 : L1Cache V
  l2 : L2Cache V
  l1Ttl : Nat
  l2Ttl : Nat

variable {V : Type}

namespace Entry

def new (now : Nat) (value : V) (ttl : Nat) : Entry V := ⟨value, now, ttl, 0, now⟩

def isExpired (entry : Entry V) (now : Nat) : Bool := decide (entry.ttl ≤ now - entry.insertedAt)

def access (entry : Entry V) (now : Nat) : Entry V :=
  { entry with accessCount := entry.accessCount + 1, lastAccessed := now }

end Entry

/-- What either level has for a vault; an entry that has expired is removed. -/
def Vaults.get (vaults : Vaults V) (now : Nat) (vaultId : String) : Option V × Vaults V :=
  match vaults.lookup vaultId with
  | none => (none, vaults)
  | some entry =>
      if entry.isExpired now then (none, vaults.erase vaultId)
      else (some entry.value, vaults.insert vaultId (entry.access now))

namespace L1Cache

def new (maxEntries : Nat) : L1Cache V := ⟨∅, maxEntries, ⟨0, 0, 0, 0⟩⟩

def getVault (c : L1Cache V) (now : Nat) (vaultId : String) : Option V × L1Cache V :=
  let found := c.vaults.get now vaultId
  (found.1, { c with
    vaults := found.2
    stats := if found.1.isSome then { c.stats with hits := c.stats.hits + 1 }
      else { c.stats with misses := c.stats.misses + 1 } })

/-- `min_by_key` may find this entry: it has not been accessed after any other. -/
def Oldest (c : L1Cache V) : Option String → Prop
  | none => c.vaults.entries = []
  | some victim => (c.vaults.lookup victim).any (fun entry =>
      c.vaults.entries.all fun p => decide (entry.lastAccessed ≤ p.2.lastAccessed)) = true

instance (c : L1Cache V) : (victim : Option String) → Decidable (c.Oldest victim)
  | none => decidable_of_iff (c.vaults.entries.isEmpty = true) List.isEmpty_iff
  | some _ => inferInstanceAs (Decidable (_ = true))

/-- At capacity an entry makes room, also for a vault that has one already. -/
def maybeEvict (c : L1Cache V) (victim : Option String) : L1Cache V :=
  if c.maxEntries ≤ c.vaults.entries.length then
    match victim with
    | some oldestKey => { c with
        vaults := c.vaults.erase oldestKey
        stats := { c.stats with evictions := c.stats.evictions + 1 } }
    | none => c
  else c

def setVault (c : L1Cache V) (victim : Option String) (now : Nat) (vaultId : String) (vault : V)
    (ttl : Nat) : L1Cache V :=
  let c := c.maybeEvict victim
  { c with
    vaults := c.vaults.insert vaultId (.new now vault ttl)
    stats := { c.stats with insertions := c.stats.insertions + 1 } }

def invalidate (c : L1Cache V) (vaultId : String) : L1Cache V :=
  { c with vaults := c.vaults.erase vaultId }

end L1Cache

namespace L2Cache

def new : L2Cache V := ⟨∅, ⟨0, 0, 0, 0⟩⟩

def getVault (c : L2Cache V) (now : Nat) (vaultId : String) : Option V × L2Cache V :=
  let found := c.vaults.get now vaultId
  (found.1, { c with
    vaults := found.2
    stats := if found.1.isSome then { c.stats with hits := c.stats.hits + 1 }
      else { c.stats with misses := c.stats.misses + 1 } })

def setVault (c : L2Cache V) (now : Nat) (vaultId : String) (vault : V) (ttl : Nat) : L2Cache V :=
  { c with
    vaults := c.vaults.insert vaultId (.new now vault ttl)
    stats := { c.stats with insertions := c.stats.insertions + 1 } }

/-- The statistics of a hit that is going to be copied back. -/
def promoted (c : L2Cache V) : L2Cache V :=
  { c with stats := { c.stats with promotions := c.stats.promotions + 1 } }

def invalidate (c : L2Cache V) (vaultId : String) : L2Cache V :=
  { c with vaults := c.vaults.erase vaultId }

end L2Cache

/-- The capacity of the first level. -/
def l1MaxEntries : Nat := 500

def MultiLevelCache.withTtls (l1Ttl l2Ttl : Nat) : MultiLevelCache V :=
  ⟨.new l1MaxEntries, .new, l1Ttl, l2Ttl⟩

/-! ## Calls and their sections -/

inductive Op (V : Type)
  | get (vaultId : String)
  | set (vaultId : String) (vault : V)
  | invalidate (vaultId : String)
deriving DecidableEq

/-- Where a thread is: in no call, before a section of its call, or about to return. A value
to be copied back comes with the number of writes to the second level that it is later than. -/
inductive Pc (V : Type)
  | idle
  | getL1 (vaultId : String)
  | getL2 (vaultId : String)
  | promote (vaultId : String) (vault : V) (stamp : Nat)
  | setL1 (vaultId : String) (vault : V)
  | setL2 (vaultId : String) (vault : V)
  | invalidateL1 (vaultId : String)
  | invalidateL2 (vaultId : String)
  | done (op : Op V) (result : Option V)
deriving DecidableEq

def Op.start : Op V → Pc V
  | .get vaultId => .getL1 vaultId
  | .set vaultId vault => .setL1 vaultId vault
  | .invalidate vaultId => .invalidateL1 vaultId

/-- The thread waits for a lock. -/
def Pc.AtLock : Pc V → Prop
  | .idle | .done _ _ => False
  | _ => True

instance : DecidablePred (Pc.AtLock (V := V)) := fun pc => by
  cases pc <;> unfold Pc.AtLock <;> infer_instance

/-- The first section of a read. -/
def MultiLevelCache.readL1 (c : MultiLevelCache V) (now : Nat) (vaultId : String) :
    MultiLevelCache V × Pc V :=
  let found := c.l1.getVault now vaultId
  ({ c with l1 := found.2 },
    match found.1 with
    | some v => .done (.get vaultId) (some v)
    | none => .getL2 vaultId)

/-- The second section of a read. -/
def MultiLevelCache.readL2 (c : MultiLevelCache V) (now : Nat) (vaultId : String) (stamp : Nat) :
    MultiLevelCache V × Pc V :=
  let found := c.l2.getVault now vaultId
  match found.1 with
  | some v => ({ c with l2 := found.2.promoted }, .promote vaultId v stamp)
  | none => ({ c with l2 := found.2 }, .done (.get vaultId) none)

/-- One section under a lock. -/
def MultiLevelCache.locked (c : MultiLevelCache V) (now : Nat) (victim : Option String)
    (stamp : Nat) : Pc V → MultiLevelCache V × Pc V
  | .getL1 vaultId => c.readL1 now vaultId
  | .getL2 vaultId => c.readL2 now vaultId stamp
  | .promote vaultId v _ =>
      ({ c with l1 := c.l1.setVault victim now vaultId v c.l1Ttl }, .done (.get vaultId) (some v))
  | .setL1 vaultId v =>
      ({ c with l1 := c.l1.setVault victim now vaultId v c.l1Ttl }, .setL2 vaultId v)
  | .setL2 vaultId v =>
      ({ c with l2 := c.l2.setVault now vaultId v c.l2Ttl }, .done (.set vaultId v) none)
  | .invalidateL1 vaultId => ({ c with l1 := c.l1.invalidate vaultId }, .invalidateL2 vaultId)
  | .invalidateL2 vaultId =>
      ({ c with l2 := c.l2.invalidate vaultId }, .done (.invalidate vaultId) none)
  | pc => (c, pc)

/-- The vault whose entry in the second level the section writes. -/
def Pc.writes : Pc V → Option String
  | .setL2 vaultId _ | .invalidateL2 vaultId => some vaultId
  | _ => none

/-- The cache, the clock and the threads; how often the second level has been written for a
vault is kept for the condition below only. -/
structure World (V : Type) where
  cache : MultiLevelCache V
  clock : Nat
  threads : Nat → Pc V
  written : String → Nat

inductive Label (V : Type)
  | call (t : Nat) (op : Op V)
  | locked (t now : Nat) (victim : Option String)
  | ret (t : Nat) (op : Op V) (result : Option V)

def Label.thread : Label V → Nat
  | .call t _ | .locked t _ _ | .ret t _ _ => t

namespace World

def start (l1Ttl l2Ttl : Nat) : World V := ⟨.withTtls l1Ttl l2Ttl, 0, fun _ => .idle, fun _ => 0⟩

def goto (w : World V) (t : Nat) (pc : Pc V) : World V :=
  { w with threads := Function.update w.threads t pc }

/-- What the section of thread `t` does. -/
def afterSection (w : World V) (t now : Nat) (victim : Option String) : World V :=
  let stamp := match w.threads t with
    | .getL2 vaultId => w.written vaultId
    | _ => 0
  let (cache, pc) := w.cache.locked now victim stamp (w.threads t)
  { cache
    clock := now
    threads := Function.update w.threads t pc
    written := fun vaultId =>
      w.written vaultId + if (w.threads t).writes = some vaultId then 1 else 0 }

/-- The label may come next. -/
def Enabled (w : World V) : Label V → Prop
  | .call t _ => w.threads t = .idle
  | .locked t now victim =>
      w.clock ≤ now ∧ (w.threads t).AtLock ∧ w.cache.l1.Oldest victim
  | .ret t op result => w.threads t = .done op result

instance [DecidableEq V] (w : World V) : DecidablePred w.Enabled := fun k => by
  cases k <;> unfold Enabled <;> infer_instance

def next (w : World V) : Label V → World V
  | .call t op => w.goto t op.start
  | .locked t now victim => w.afterSection t now victim
  | .ret t _ _ => w.goto t .idle

end World

/-- Threads take turns, section by section. -/
def Step (w : World V) (k : Label V) (w' : World V) : Prop := w.Enabled k ∧ w' = w.next k

/-! ## When a value may be copied back -/

/-- The call has changed the first level for a vault, and not yet the second. -/
def Pc.Halfway (vaultId : String) : Pc V → Prop
  | .setL2 i _ | .invalidateL2 i => i = vaultId
  | _ => False

/-- A value that is copied back is current: no change of the vault is halfway, and the second
level has the value or has not been written for the vault since it was read. -/
def Current (w : World V) : Label V → Prop
  | .locked t _ _ =>
      match w.threads t with
      | .promote vaultId v stamp => (∀ t', ¬ (w.threads t').Halfway vaultId) ∧
          (stamp = w.written vaultId ∨
            ∃ entry, w.cache.l2.vaults.lookup vaultId = some entry ∧ entry.value = v)
      | _ => True
  | _ => True

/-- What a call leaves behind for its vault. -/
def Op.target : Op V → Option V
  | .set _ v => some v
  | _ => none

/-- The call writes something else than `target` for the vault. An invalidation never does. -/
def Op.Against (vaultId : String) (target : Option V) : Op V → Prop
  | .set i v => i = vaultId ∧ target ≠ some v
  | _ => False

/-- The call of a thread, until it has returned. -/
def Pc.op : Pc V → Option (Op V)
  | .idle => none
  | .getL1 i | .getL2 i | .promote i _ _ => some (.get i)
  | .setL1 i v | .setL2 i v => some (.set i v)
  | .invalidateL1 i | .invalidateL2 i => some (.invalidate i)
  | .done op _ => some op

/-- No call under way writes anything else than `target`. -/
def World.Quiet (w : World V) (vaultId : String) (target : Option V) : Prop :=
  ∀ t op, (w.threads t).op = some op → ¬ op.Against vaultId target

/-! ## One section -/

/-- An entry of the vault, if there is one, has the value `target`. -/
def Vaults.Holds (vaults : Vaults V) (vaultId : String) (target : Option V) : Prop :=
  ∀ entry, vaults.lookup vaultId = some entry → target = some entry.value

section Levels

variable {vaults : Vaults V} {vaultId i : String} {target r : Option V} {now : Nat}
  {entry : Entry V} {victim : Option String} {v : V} {ttl : Nat}

theorem Vaults.Holds.erase (h : vaults.Holds vaultId target) :
    Vaults.Holds (vaults.erase i) vaultId target := by
  intro entry hentry
  by_cases hi : vaultId = i
  · subst hi
    simp at hentry
  · rw [AList.lookup_erase_ne hi] at hentry
    exact h entry hentry

theorem Vaults.holds_erase_self : Vaults.Holds (vaults.erase vaultId) vaultId target := by
  intro entry hentry
  simp at hentry

theorem Vaults.Holds.insert (h : i ≠ vaultId → vaults.Holds vaultId target)
    (hentry : i = vaultId → target = some entry.value) :
    Vaults.Holds (vaults.insert i entry) vaultId target := by
  intro e he
  by_cases hi : vaultId = i
  · subst hi
    rw [AList.lookup_insert] at he
    obtain rfl := Option.some.inj he
    exact hentry rfl
  · rw [AList.lookup_insert_ne hi] at he
    exact h (Ne.symm hi) e he

/-- Looking a vault up keeps what the level holds, and finds it. -/
theorem Vaults.Holds.get (h : vaults.Holds vaultId target) :
    Vaults.Holds (vaults.get now i).2 vaultId target ∧
      (i = vaultId → ∀ v, (vaults.get now i).1 = some v → target = some v) := by
  unfold Vaults.get
  split
  · exact ⟨h, fun _ v hv => by cases hv⟩
  · next entry hentry =>
      split
      · exact ⟨h.erase, fun _ v hv => by cases hv⟩
      · refine ⟨.insert (fun _ => h) ?_, ?_⟩
        · rintro rfl
          exact h entry hentry
        · rintro rfl v ⟨⟩
          exact h entry hentry

/-- Eviction only removes. -/
theorem L1Cache.holds_maybeEvict {c : L1Cache V} (h : c.vaults.Holds vaultId target) :
    Vaults.Holds (c.maybeEvict victim).vaults vaultId target := by
  unfold L1Cache.maybeEvict
  split
  · cases victim with
    | none => exact h
    | some oldestKey => exact h.erase
  · exact h

theorem L1Cache.holds_setVault {c : L1Cache V} (h : i ≠ vaultId → c.vaults.Holds vaultId target)
    (hv : i = vaultId → target = some v) :
    Vaults.Holds (c.setVault victim now i v ttl).vaults vaultId target :=
  .insert (fun hi => holds_maybeEvict (h hi)) hv

end Levels

/-- What the thread is about to write, or to return, for the vault is `target`. -/
def Pc.Agrees (vaultId : String) (target : Option V) : Pc V → Prop
  | .promote i v _ | .setL1 i v | .setL2 i v | .done (.get i) (some v) =>
      i = vaultId → target = some v
  | _ => True

section Sections

variable {c : MultiLevelCache V} {vaultId i : String} {target : Option V} {now stamp n : Nat}
  {victim : Option String} {pc : Pc V} {v : V}

theorem readL1_op : (c.readL1 now i).2.op = some (.get i) := by
  unfold MultiLevelCache.readL1
  dsimp only
  split <;> rfl

theorem readL2_op : (c.readL2 now i stamp).2.op = some (.get i) := by
  unfold MultiLevelCache.readL2
  dsimp only
  split <;> rfl

theorem readL2_l1 : (c.readL2 now i stamp).1.l1 = c.l1 := by
  unfold MultiLevelCache.readL2
  dsimp only
  split <;> rfl

theorem readL2_vaults :
    (c.readL2 now i stamp).1.l2.vaults = (c.l2.vaults.get now i).2 := by
  unfold MultiLevelCache.readL2
  dsimp only
  split <;> rfl

theorem readL1_agrees (h : c.l1.vaults.Holds vaultId target) :
    (c.readL1 now i).2.Agrees vaultId target := by
  have hget : i = vaultId → ∀ v, (c.l1.vaults.get now i).1 = some v → target = some v := h.get.2
  unfold MultiLevelCache.readL1
  dsimp only
  split
  · next v hv => exact fun hi => hget hi v hv
  · trivial

theorem readL2_agrees (h : c.l2.vaults.Holds vaultId target) :
    (c.readL2 now i stamp).2.Agrees vaultId target := by
  have hget : i = vaultId → ∀ v, (c.l2.vaults.get now i).1 = some v → target = some v := h.get.2
  unfold MultiLevelCache.readL2
  dsimp only
  split
  · next v hv => exact fun hi => hget hi v hv
  · trivial

theorem locked_op : (c.locked now victim stamp pc).2.op = pc.op := by
  cases pc with
  | getL1 => exact readL1_op
  | getL2 => exact readL2_op
  | _ => rfl

theorem locked_l1 (h : c.l1.vaults.Holds vaultId target) (hpc : pc.Agrees vaultId target) :
    (c.locked now victim stamp pc).1.l1.vaults.Holds vaultId target := by
  cases pc with
  | getL1 i => exact h.get.1
  | getL2 i =>
      show (c.readL2 now i stamp).1.l1.vaults.Holds vaultId target
      rwa [readL2_l1]
  | promote i v n => exact L1Cache.holds_setVault (fun _ => h) hpc
  | setL1 i v => exact L1Cache.holds_setVault (fun _ => h) hpc
  | invalidateL1 i => exact h.erase
  | _ => exact h

theorem locked_l2 (h : c.l2.vaults.Holds vaultId target) (hpc : pc.Agrees vaultId target) :
    (c.locked now victim stamp pc).1.l2.vaults.Holds vaultId target := by
  cases pc with
  | getL2 i =>
      show (c.readL2 now i stamp).1.l2.vaults.Holds vaultId target
      rw [readL2_vaults]
      exact h.get.1
  | setL2 i v => exact .insert (fun _ => h) hpc
  | invalidateL2 i => exact h.erase
  | _ => exact h

/-- A thread that reads two levels with `target` goes on with `target`. -/
theorem locked_agrees (h₁ : c.l1.vaults.Holds vaultId target)
    (h₂ : c.l2.vaults.Holds vaultId target) (hpc : pc.Agrees vaultId target) :
    (c.locked now victim stamp pc).2.Agrees vaultId target := by
  cases pc with
  | getL1 => exact readL1_agrees h₁
  | getL2 => exact readL2_agrees h₂
  | promote => exact hpc
  | setL1 => exact hpc
  | done => exact hpc
  | _ => trivial

/-- Only the second section of a read leaves a value to be copied back, with the stamp. -/
theorem locked_promote (h : (c.locked now victim stamp pc).2 = .promote i v n) :
    pc = .getL2 i ∧ n = stamp := by
  cases pc with
  | getL1 j =>
      replace h : (c.readL1 now j).2 = .promote i v n := h
      unfold MultiLevelCache.readL1 at h
      dsimp only at h
      split at h <;> cases h
  | getL2 j =>
      replace h : (c.readL2 now j stamp).2 = .promote i v n := h
      unfold MultiLevelCache.readL2 at h
      dsimp only at h
      split at h <;> cases h
      exact ⟨rfl, rfl⟩
  | _ => cases h

end Sections

/-! ## Runs -/

/-- Both levels have `target` for the vault or nothing, and so has every value yet to be
copied back that has not been overtaken. -/
structure World.Coherent (w : World V) (vaultId : String) (target : Option V) : Prop where
  l1 : w.cache.l1.vaults.Holds vaultId target
  l2 : w.cache.l2.vaults.Holds vaultId target
  promotions : ∀ t v n, w.threads t = .promote vaultId v n →
    target = some v ∨ n < w.written vaultId

/-- Values yet to be copied back have the stamp of their reading. -/
def World.Stamped (w : World V) : Prop :=
  ∀ t i v n, w.threads t = .promote i v n → n ≤ w.written i

section Runs

variable {w w' : World V} {k : Label V} {t t' now : Nat} {victim : Option String}
  {vaultId i : String} {target : Option V} {op m : Op V} {v : V} {ks : List (Label V)}

theorem thread_goto {pc : Pc V} :
    (w.goto t pc).threads t' = if t' = t then pc else w.threads t' := by
  simp [World.goto, Function.update_apply]

theorem op_start : op.start.op = some op := by
  cases op <;> rfl

theorem agrees_start (h : ¬ op.Against vaultId target) : op.start.Agrees vaultId target := by
  cases op with
  | set i v => exact fun hi => not_not.mp fun hne => h ⟨hi, hne⟩
  | _ => trivial

/-- A section starts with a stamp that is right if it needs one. -/
theorem afterSection_eq (w : World V) (t now : Nat) (victim : Option String) : ∃ stamp,
    (∀ i, w.threads t = .getL2 i → stamp = w.written i) ∧
    (w.afterSection t now victim).cache = (w.cache.locked now victim stamp (w.threads t)).1 ∧
    ∀ t', (w.afterSection t now victim).threads t' =
      if t' = t then (w.cache.locked now victim stamp (w.threads t)).2 else w.threads t' := by
  refine ⟨match w.threads t with | .getL2 vaultId => w.written vaultId | _ => 0, ?_, rfl, ?_⟩
  · intro i hi
    rw [hi]
  · intro t'
    simp [World.afterSection, Function.update_apply]

theorem written_mono : w.written i ≤ (w.next k).written i := by
  cases k with
  | locked => exact Nat.le_add_right _ _
  | _ => exact Nat.le_refl _

/-- A step moves its own thread only. -/
theorem threads_next_of_ne (h : t ≠ k.thread) : (w.next k).threads t = w.threads t := by
  cases k with
  | call t' op => exact thread_goto.trans (if_neg h)
  | locked t' now victim =>
      obtain ⟨stamp, -, -, hthreads⟩ := afterSection_eq w t' now victim
      exact (hthreads t).trans (if_neg h)
  | ret t' op result => exact thread_goto.trans (if_neg h)

/-- What holds of a thread wherever it is and wherever its step takes it. -/
theorem threads_next_induction {P : Pc V → Prop} (hkeep : P (w.threads t))
    (hcall : ∀ op, k = .call t op → P op.start)
    (hlocked : ∀ now victim stamp, k = .locked t now victim →
      (∀ i, w.threads t = .getL2 i → stamp = w.written i) →
        P (w.cache.locked now victim stamp (w.threads t)).2)
    (hidle : P .idle) : P ((w.next k).threads t) := by
  by_cases ht : t = k.thread
  · cases k with
    | call t' op =>
        obtain rfl : t = t' := ht
        rw [World.next, thread_goto, if_pos rfl]
        exact hcall op rfl
    | locked t' now victim =>
        obtain rfl : t = t' := ht
        obtain ⟨stamp, hstamp, -, hthreads⟩ := afterSection_eq w t now victim
        rw [World.next, hthreads, if_pos rfl]
        exact hlocked now victim stamp rfl hstamp
    | ret t' op result =>
        obtain rfl : t = t' := ht
        rw [World.next, thread_goto, if_pos rfl]
        exact hidle
  · rw [threads_next_of_ne ht]
    exact hkeep

/-- The calls under way are those from before and the new one. -/
theorem World.Quiet.next (h : w.Quiet vaultId target)
    (hcall : ∀ t op, k = .call t op → ¬ op.Against vaultId target) :
    (w.next k).Quiet vaultId target := by
  intro t'
  refine threads_next_induction (P := fun pc => ∀ op, pc.op = some op → ¬ op.Against vaultId target)
    (h t') (fun op hk op' hop => ?_) (fun now victim stamp _ _ op' hop => ?_) fun _ hop => ?_
  · rw [op_start] at hop
    exact Option.some.inj hop ▸ hcall t' op hk
  · rw [locked_op] at hop
    exact h t' op' hop
  · cases hop

theorem stamped_next (h : w.Stamped) : (w.next k).Stamped := by
  intro t' i v n hpc
  refine Nat.le_trans ?_ written_mono
  refine threads_next_induction (w := w) (k := k) (t := t')
    (P := fun pc => pc = .promote i v n → n ≤ w.written i)
    (h t' i v n) (fun op _ hpc => ?_) (fun now victim stamp _ hstamp hpc => ?_) (fun hpc => ?_) hpc
  · cases op <;> cases hpc
  · obtain ⟨hget, rfl⟩ := locked_promote hpc
    exact Nat.le_of_eq (hstamp i hget)
  · cases hpc

theorem stamped_of_run {l1Ttl l2Ttl : Nat} (h : Run Step (World.start l1Ttl l2Ttl : World V) ks w) :
    w.Stamped := by
  refine h.invariant (fun t i v n hpc => by cases hpc) ?_
  rintro w k _ hw ⟨-, rfl⟩
  exact stamped_next hw

theorem World.Quiet.agrees {pc : Pc V} (h : w.Quiet vaultId target)
    (hpc : w.threads t = pc) (hset : pc = .setL1 i v ∨ pc = .setL2 i v) :
    i = vaultId → target = some v := by
  intro hi
  have hop : (w.threads t).op = some (.set i v) := by
    rcases hset with rfl | rfl <;> rw [hpc] <;> rfl
  exact not_not.mp fun hne => h t _ hop ⟨hi, hne⟩

/-- A section of a current value, or of a write that is not against it, writes `target`. -/
theorem agrees_of_coherent (h : w.Coherent vaultId target) (hquiet : w.Quiet vaultId target)
    (hlock : (w.threads t).AtLock) (hcurrent : Current w (.locked t now victim)) :
    (w.threads t).Agrees vaultId target := by
  cases hpc : w.threads t with
  | promote i v n =>
      rintro rfl
      simp only [Current, hpc] at hcurrent
      rcases h.promotions t v n hpc with htarget | hstale
      · exact htarget
      · rcases hcurrent.2 with rfl | ⟨entry, hentry, rfl⟩
        · exact absurd hstale (Nat.lt_irrefl _)
        · exact h.l2 entry hentry
  | setL1 i v => exact hquiet.agrees hpc (.inl rfl)
  | setL2 i v => exact hquiet.agrees hpc (.inr rfl)
  | done op result =>
      rw [hpc] at hlock
      exact hlock.elim
  | _ => trivial

/-- What is coherent stays so. -/
theorem World.Coherent.next (h : w.Coherent vaultId target) (hquiet : w.Quiet vaultId target)
    (henabled : w.Enabled k) (hcurrent : Current w k) : (w.next k).Coherent vaultId target := by
  cases k with
  | call t op =>
      refine ⟨h.l1, h.l2, fun t' v n hpc => ?_⟩
      rw [World.next, thread_goto] at hpc
      split at hpc
      · cases op <;> cases hpc
      · exact h.promotions t' v n hpc
  | locked t now victim =>
      have hagrees := agrees_of_coherent h hquiet henabled.2.1 hcurrent
      obtain ⟨stamp, -, hcache, hthreads⟩ := afterSection_eq w t now victim
      refine ⟨?_, ?_, fun t' v n hpc => ?_⟩
      · rw [World.next, hcache]
        exact locked_l1 h.l1 hagrees
      · rw [World.next, hcache]
        exact locked_l2 h.l2 hagrees
      · rw [World.next, hthreads] at hpc
        split at hpc
        · have hnew : (w.cache.locked now victim stamp (w.threads t)).2.Agrees vaultId target :=
            locked_agrees h.l1 h.l2 hagrees
          rw [hpc] at hnew
          exact .inl (hnew rfl)
        · exact (h.promotions t' v n hpc).imp_right fun hn => Nat.lt_of_lt_of_le hn written_mono
  | ret t op result =>
      refine ⟨h.l1, h.l2, fun t' v n hpc => ?_⟩
      rw [World.next, thread_goto] at hpc
      split at hpc
      · cases hpc
      · exact h.promotions t' v n hpc

/-- A thread that agrees with `target` does so as long as the levels do. -/
theorem agrees_next (h : w.Coherent vaultId target)
    (hcall : ∀ t op, k = .call t op → ¬ op.Against vaultId target)
    (hagrees : (w.threads t').Agrees vaultId target) :
    ((w.next k).threads t').Agrees vaultId target :=
  threads_next_induction (P := (·.Agrees vaultId target)) hagrees
    (fun op hk => agrees_start (hcall t' op hk))
    (fun _ _ _ _ _ => locked_agrees h.l1 h.l2 hagrees) trivial

/-! A write from its call to its return. -/

/-- The second section of a write. -/
def Op.second : Op V → Pc V
  | .set i v => .setL2 i v
  | .invalidate i => .invalidateL2 i
  | .get i => .getL2 i

/-- The call writes the vault. -/
def Op.Writes (vaultId : String) : Op V → Prop
  | .set i _ | .invalidate i => i = vaultId
  | .get _ => False

/-- How far the write `m` of thread `t` has got. -/
inductive Progress (w : World V) (t : Nat) (vaultId : String) (m : Op V) : Prop
  | start (h : w.threads t = m.start)
  | halfway (h : w.threads t = m.second) (hl1 : w.cache.l1.vaults.Holds vaultId m.target)
  | through (h : w.Coherent vaultId m.target)

/-- The first section of a write leaves `target` in the first level. -/
theorem locked_start (c : MultiLevelCache V) (now stamp : Nat) (victim : Option String)
    (hm : m.Writes vaultId) :
    (c.locked now victim stamp m.start).2 = m.second ∧
      (c.locked now victim stamp m.start).1.l1.vaults.Holds vaultId m.target := by
  cases m with
  | get => exact hm.elim
  | set i v =>
      obtain rfl : i = vaultId := hm
      exact ⟨rfl, L1Cache.holds_setVault (fun hi => absurd rfl hi) fun _ => rfl⟩
  | invalidate i =>
      obtain rfl : i = vaultId := hm
      exact ⟨rfl, Vaults.holds_erase_self⟩

/-- The second section does so in the second level. -/
theorem locked_second (c : MultiLevelCache V) (now stamp : Nat) (victim : Option String)
    (hm : m.Writes vaultId) :
    m.second.writes = some vaultId ∧ (c.locked now victim stamp m.second).1.l1 = c.l1 ∧
      (c.locked now victim stamp m.second).2 = .done m none ∧
      (c.locked now victim stamp m.second).1.l2.vaults.Holds vaultId m.target := by
  cases m with
  | get => exact hm.elim
  | set i v =>
      obtain rfl : i = vaultId := hm
      exact ⟨rfl, rfl, rfl, .insert (fun hi => absurd rfl hi) fun _ => rfl⟩
  | invalidate i =>
      obtain rfl : i = vaultId := hm
      exact ⟨rfl, rfl, rfl, Vaults.holds_erase_self⟩

theorem halfway_second (hm : m.Writes vaultId) : m.second.Halfway vaultId := by
  cases m with
  | get => exact hm.elim
  | _ => exact hm

/-- While a write is halfway, no value of the vault is copied back. -/
theorem agrees_of_halfway (hm : m.Writes vaultId) (h : w.threads t' = m.second)
    (hquiet : w.Quiet vaultId target) (hlock : (w.threads t).AtLock)
    (hcurrent : Current w (.locked t now victim)) : (w.threads t).Agrees vaultId target := by
  cases hpc : w.threads t with
  | promote i v n =>
      rintro rfl
      simp only [Current, hpc] at hcurrent
      refine absurd ?_ (hcurrent.1 t')
      rw [h]
      exact halfway_second hm
  | setL1 i v => exact hquiet.agrees hpc (.inl rfl)
  | setL2 i v => exact hquiet.agrees hpc (.inr rfl)
  | done op result =>
      rw [hpc] at hlock
      exact hlock.elim
  | _ => trivial

/-- A thread that waits for a lock is moved by its own section only. -/
theorem threads_next (hlock : (w.threads t).AtLock) (henabled : w.Enabled k)
    (hk : ∀ now victim, k ≠ .locked t now victim) : (w.next k).threads t = w.threads t := by
  refine threads_next_of_ne ?_
  rintro rfl
  cases k with
  | locked t now victim => exact hk now victim rfl
  | _ =>
      unfold World.Enabled at henabled
      unfold Label.thread at hlock
      rw [henabled] at hlock
      exact hlock

theorem atLock_start : m.start.AtLock := by
  cases m <;> trivial

theorem atLock_second : m.second.AtLock := by
  cases m <;> trivial

/-- The first section of a write leaves the write halfway. -/
theorem next_start (hm : m.Writes vaultId) (h : w.threads t = m.start) :
    Progress (w.next (.locked t now victim)) t vaultId m := by
  obtain ⟨stamp, -, hcache, hthreads⟩ := afterSection_eq w t now victim
  obtain ⟨hsecond, hl1⟩ := locked_start w.cache now stamp victim hm
  rw [← h] at hsecond hl1
  refine .halfway ?_ ?_
  · rw [World.next, hthreads, if_pos rfl, hsecond]
  · rw [World.next, hcache]
    exact hl1

/-- The second one makes the vault coherent: whatever has been read before is overtaken. -/
theorem next_second (hm : m.Writes vaultId) (h : w.threads t = m.second) (hstamped : w.Stamped)
    (hl1 : w.cache.l1.vaults.Holds vaultId m.target) :
    Progress (w.next (.locked t now victim)) t vaultId m := by
  obtain ⟨stamp, -, hcache, hthreads⟩ := afterSection_eq w t now victim
  obtain ⟨hwrites, hsame, hdone, hl2⟩ := locked_second w.cache now stamp victim hm
  rw [← h] at hwrites hsame hdone hl2
  refine .through ⟨?_, ?_, fun t' v n hpc => ?_⟩
  · rw [World.next, hcache, hsame]
    exact hl1
  · rw [World.next, hcache]
    exact hl2
  · have hwritten : (w.next (.locked t now victim)).written vaultId = w.written vaultId + 1 := by
      simp [World.next, World.afterSection, hwrites]
    rw [World.next, hthreads] at hpc
    split at hpc
    · rw [hdone] at hpc
      cases hpc
    · rw [hwritten]
      exact .inr (Nat.lt_succ_of_le (hstamped t' vaultId v n hpc))

/-- The first level keeps what a write halfway has put there. -/
theorem l1_of_halfway (hm : m.Writes vaultId) (h : w.threads t = m.second)
    (hl1 : w.cache.l1.vaults.Holds vaultId target) (hquiet : w.Quiet vaultId target)
    (henabled : w.Enabled k) (hcurrent : Current w k) :
    (w.next k).cache.l1.vaults.Holds vaultId target := by
  cases k with
  | locked t' now victim =>
      obtain ⟨stamp, -, hcache, -⟩ := afterSection_eq w t' now victim
      rw [World.next, hcache]
      exact locked_l1 hl1 (agrees_of_halfway hm h hquiet henabled.2.1 hcurrent)
  | _ => exact hl1

/-- A write goes through its two sections. -/
theorem Progress.next (hm : m.Writes vaultId) (h : Progress w t vaultId m)
    (hstamped : w.Stamped) (hquiet : w.Quiet vaultId m.target) (henabled : w.Enabled k)
    (hcurrent : Current w k) : Progress (w.next k) t vaultId m := by
  by_cases hk : ∃ now victim, k = .locked t now victim
  · obtain ⟨now, victim, rfl⟩ := hk
    cases h with
    | start h => exact next_start hm h
    | halfway h hl1 => exact next_second hm h hstamped hl1
    | through h => exact .through (h.next hquiet henabled hcurrent)
  · have hother : ∀ now victim, k ≠ .locked t now victim :=
      fun now victim heq => hk ⟨now, victim, heq⟩
    cases h with
    | start h => exact .start ((threads_next (h ▸ atLock_start) henabled hother).trans h)
    | halfway h hl1 =>
        exact .halfway ((threads_next (h ▸ atLock_second) henabled hother).trans h)
          (l1_of_halfway hm h hl1 hquiet henabled hcurrent)
    | through h => exact .through (h.next hquiet henabled hcurrent)

/-- A write that returns has gone through. -/
theorem Progress.returned (h : Progress w t vaultId m) {result : Option V}
    (henabled : w.Enabled (.ret t op result)) : w.Coherent vaultId m.target := by
  rw [World.Enabled] at henabled
  cases h with
  | through h => exact h
  | start h =>
      have hlock : (w.threads t).AtLock := h ▸ atLock_start
      rw [henabled] at hlock
      exact hlock.elim
  | halfway h _ =>
      have hlock : (w.threads t).AtLock := h ▸ atLock_second
      rw [henabled] at hlock
      exact hlock.elim

/-- The steps of a run in which only current values are copied back. -/
abbrev CurrentStep : World V → Label V → World V → Prop := Guarded Step Current

theorem Quiet.of_run (h : Run CurrentStep w ks w') (hquiet : w.Quiet vaultId target)
    (hothers : ∀ t op, .call t op ∈ ks → ¬ op.Against vaultId target) :
    w'.Quiet vaultId target := by
  induction h with
  | start => exact hquiet
  | next _ hk ih =>
      obtain ⟨⟨-, rfl⟩, -⟩ := hk
      refine (ih fun t op hop => hothers t op (List.mem_cons_of_mem _ hop)).next ?_
      rintro t op rfl
      exact hothers t op List.mem_cons_self

/-- Along a run a write progresses, and is through when it has returned. -/
theorem progress_of_run (hm : m.Writes vaultId) (h : Run CurrentStep w ks w')
    (hstart : w.threads t = m.start) (hstamped : w.Stamped) (hquiet : w.Quiet vaultId m.target)
    (hothers : ∀ t op, .call t op ∈ ks → ¬ op.Against vaultId m.target) :
    w'.Stamped ∧ Progress w' t vaultId m ∧
      (∀ op result, .ret t op result ∈ ks → w'.Coherent vaultId m.target) := by
  induction h with
  | start => exact ⟨hstamped, .start hstart, fun _ _ h => absurd h List.not_mem_nil⟩
  | next hrun hk ih =>
      obtain ⟨⟨henabled, rfl⟩, hcurrent⟩ := hk
      have hothers' := fun t op hop => hothers t op (List.mem_cons_of_mem _ hop)
      obtain ⟨hst, hprogress, hreturned⟩ := ih hothers'
      have hq := Quiet.of_run hrun hquiet hothers'
      refine ⟨stamped_next hst, hprogress.next hm hst hq henabled hcurrent, ?_⟩
      intro op result hmem
      rcases List.mem_cons.mp hmem with rfl | hmem
      · exact (hprogress.returned henabled).next hq henabled hcurrent
      · exact (hreturned op result hmem).next hq henabled hcurrent

/-- Along a run a coherent vault stays coherent, and reads go on with `target`. -/
theorem coherent_of_run (h : Run CurrentStep w ks w') (hcoherent : w.Coherent vaultId target)
    (hquiet : w.Quiet vaultId target)
    (hothers : ∀ t op, .call t op ∈ ks → ¬ op.Against vaultId target) :
    w'.Coherent vaultId target ∧
      ((w.threads t).Agrees vaultId target → (w'.threads t).Agrees vaultId target) := by
  induction h with
  | start => exact ⟨hcoherent, id⟩
  | next hrun hk ih =>
      obtain ⟨⟨henabled, rfl⟩, hcurrent⟩ := hk
      have hothers' := fun t op hop => hothers t op (List.mem_cons_of_mem _ hop)
      obtain ⟨hc, hagrees⟩ := ih hothers'
      refine ⟨hc.next (Quiet.of_run hrun hquiet hothers') henabled hcurrent, fun h => ?_⟩
      refine agrees_next hc ?_ (hagrees h)
      rintro t op rfl
      exact hothers t op List.mem_cons_self

theorem not_against_target : ¬ m.Against vaultId m.target := by
  cases m with
  | set i v => exact fun h => h.2 rfl
  | _ => exact id

/-- In every run in which only current values are copied back: if a `set_vault` or an
`invalidate` has returned, and no call that was under way when it started or came later writes
another value for the vault, then a `get_vault` that starts afterwards returns what was
written, or nothing. After an invalidation that is nothing at all. -/
theorem get_returns_last_write {l1Ttl l2Ttl g : Nat} {w₀ w₁ w₂ w₃ w₄ w₅ : World V}
    {ks₀ ks₁ ks₂ : List (Label V)} {result : Option V}
    (before : Run CurrentStep (World.start l1Ttl l2Ttl) ks₀ w₀)
    (hm : m.Writes vaultId) (hcall : CurrentStep w₀ (.call t m) w₁)
    (during : Run CurrentStep w₁ ks₁ w₂) (hreturned : .ret t m none ∈ ks₁)
    (hget : CurrentStep w₂ (.call g (.get vaultId)) w₃) (after : Run CurrentStep w₃ ks₂ w₄)
    (hresult : CurrentStep w₄ (.ret g (.get vaultId) result) w₅)
    (hquiet : w₀.Quiet vaultId m.target)
    (hothers : ∀ t' op, .call t' op ∈ ks₂ ++ ks₁ → ¬ op.Against vaultId m.target) :
    result = none ∨ result = m.target := by
  obtain ⟨⟨-, rfl⟩, -⟩ := hcall
  have hstarted : (w₀.next (.call t m)).threads t = m.start := by
    rw [World.next, thread_goto, if_pos rfl]
  have hquiet₁ : (w₀.next (.call t m)).Quiet vaultId m.target := by
    refine hquiet.next ?_
    rintro _ _ ⟨⟩
    exact not_against_target
  have hothers₁ := fun t' op hop => hothers t' op (List.mem_append_right _ hop)
  have hothers₂ := fun t' op hop => hothers t' op (List.mem_append_left _ hop)
  -- the write has gone through when the read starts
  have hstamped : (w₀.next (.call t m)).Stamped := stamped_next (stamped_of_run before.unguard)
  have hcoherent₂ :=
    (progress_of_run hm during hstarted hstamped hquiet₁ hothers₁).2.2 m none hreturned
  obtain ⟨⟨henabled, rfl⟩, hcurrent⟩ := hget
  have hquiet₂ := Quiet.of_run during hquiet₁ hothers₁
  have hreads : ((w₂.next (.call g (.get vaultId))).threads g).Agrees vaultId m.target := by
    rw [World.next, thread_goto, if_pos rfl]
    trivial
  have hquiet₃ : (w₂.next (.call g (.get vaultId))).Quiet vaultId m.target := by
    refine hquiet₂.next ?_
    rintro _ _ ⟨⟩
    exact id
  -- so that it reads what was written
  have hread := (coherent_of_run (t := g) after (hcoherent₂.next hquiet₂ henabled hcurrent) hquiet₃
    hothers₂).2 hreads
  obtain ⟨⟨hdone, -⟩, -⟩ := hresult
  rw [World.Enabled] at hdone
  rw [hdone] at hread
  cases result with
  | none => exact .inl rfl
  | some v => exact .inr (hread rfl).symm

end Runs

/-- The labels of the list may come in this order, and pass the check. -/
def playable [DecidableEq V] (check : World V → Label V → Bool) : World V → List (Label V) → Bool
  | _, [] => true
  | w, k :: ks => decide (w.Enabled k) && check w k && playable check (w.next k) ks

theorem run_of_playable [DecidableEq V] (check : World V → Label V → Bool) (w : World V)
    (ks : List (Label V)) (h : playable check w ks = true) :
    Run (Guarded Step fun w k => check w k = true) w ks.reverse (ks.foldl World.next w) := by
  induction ks generalizing w with
  | nil => exact .start
  | cons k ks ih =>
      obtain ⟨hk, hks⟩ := (Bool.and_eq_true _ _).mp h
      obtain ⟨henabled, hcheck⟩ := (Bool.and_eq_true _ _).mp hk
      rw [List.reverse_cons]
      exact (Run.next .start ⟨⟨of_decide_eq_true henabled, rfl⟩, hcheck⟩).trans (ih _ hks)

/-- A thread beyond those of a run stays where it is. -/
theorem threads_foldl {w : World V} {t n : Nat} {ks : List (Label V)} (ht : n < t)
    (h : ∀ k ∈ ks, k.thread ≤ n) : (ks.foldl World.next w).threads t = w.threads t := by
  induction ks generalizing w with
  | nil => rfl
  | cons k ks ih =>
      have hk : t ≠ k.thread := Nat.ne_of_gt (Nat.lt_of_le_of_lt (h k List.mem_cons_self) ht)
      rw [List.foldl_cons, ih fun k hk => h k (List.mem_cons_of_mem _ hk)]
      exact threads_next_of_ne hk

/-- The section does not copy a value back. -/
def Label.plain (w : World V) : Label V → Bool
  | .locked t _ _ =>
      match w.threads t with
      | .promote _ _ _ => false
      | _ => true
  | _ => true

theorem current_of_plain {w : World V} {k : Label V} (h : k.plain w = true) : Current w k := by
  cases k with
  | locked t now victim =>
      simp only [Label.plain] at h
      simp only [Current]
      split at h
      · cases h
      · trivial
  | _ => trivial

theorem currentRun_of_playable [DecidableEq V] (w : World V) (ks : List (Label V))
    (h : playable (fun w k => k.plain w) w ks = true) :
    Run CurrentStep w ks.reverse (ks.foldl World.next w) :=
  (run_of_playable _ w ks h).mono fun _ _ _ hk => ⟨hk.1, current_of_plain hk.2⟩

theorem stepRun_of_playable [DecidableEq V] (w : World V) (ks : List (Label V))
    (h : playable (fun _ _ => true) w ks = true) : Run Step w ks.reverse (ks.foldl World.next w) :=
  (run_of_playable _ w ks h).unguard

/-- A thread writes. When its entry in the first level has expired, another reads what it wrote
from the second one and copies it back. -/
theorem get_returns_written : ∃ w w' : World Nat,
    CurrentStep w (.ret 2 (.get "7") (some 1)) w' ∧
      (some 1 = none ∨ some 1 = (Op.set "7" 1).target) := by
  let writing : List (Label Nat) := [.call 1 (.set "7" 1), .locked 1 0 none,
    .locked 1 0 (some "7"), .ret 1 (.set "7" 1) none]
  let reading : List (Label Nat) := [.call 2 (.get "7"), .locked 2 60 (some "7"), .locked 2 60 none]
  let written : World Nat := writing.foldl World.next (.start 60 1800)
  let found : World Nat := (writing ++ reading).foldl World.next (.start 60 1800)
  have during : Run CurrentStep ((World.start 60 1800).next (.call 1 (.set "7" 1))) _ written :=
    currentRun_of_playable _
      [.locked 1 0 none, .locked 1 0 (some "7"), .ret 1 (.set "7" 1) none] (by decide)
  have hfound : Run CurrentStep (written.next (.call 2 (.get "7"))) _ found :=
    currentRun_of_playable _ [.locked 2 60 (some "7"), .locked 2 60 none] (by decide)
  have hcurrent : Current found (.locked 2 60 none) := by
    refine ⟨fun t => ?_, .inl (by decide)⟩
    by_cases ht : 2 < t
    · rw [threads_foldl ht (by decide)]
      exact id
    · obtain rfl | rfl | rfl : t = 0 ∨ t = 1 ∨ t = 2 := by omega
      all_goals exact id
  have hcopy : CurrentStep found (.locked 2 60 none) _ := ⟨⟨by decide, rfl⟩, hcurrent⟩
  have hresult : CurrentStep (found.next (.locked 2 60 none)) (.ret 2 (.get "7") (some 1)) _ :=
    ⟨⟨by decide, rfl⟩, trivial⟩
  refine ⟨_, _, hresult, get_returns_last_write .start (rfl : (Op.set "7" 1).Writes "7")
    ⟨⟨rfl, rfl⟩, trivial⟩ during List.mem_cons_self ⟨⟨by decide, rfl⟩, trivial⟩
    (.next hfound hcopy) hresult (fun t op hop => by cases hop) fun t op hop => ?_⟩
  rcases op with _ | _ | _ <;> simp at hop

/-- A reader finds 1 in the second level. Before it copies the value back, 2 is written. From
then on readers get 1. -/
theorem stale_value_promoted :
    ¬ ∀ (l1Ttl l2Ttl t g : Nat) (vaultId : String) (m : Op Nat) (w₀ w₁ w₂ w₃ w₄ w₅ : World Nat)
      (ks₀ ks₁ ks₂ : List (Label Nat)) (result : Option Nat),
      Run Step (World.start l1Ttl l2Ttl) ks₀ w₀ → m.Writes vaultId → Step w₀ (.call t m) w₁ →
      Run Step w₁ ks₁ w₂ → .ret t m none ∈ ks₁ → Step w₂ (.call g (.get vaultId)) w₃ →
      Run Step w₃ ks₂ w₄ → Step w₄ (.ret g (.get vaultId) result) w₅ →
      w₀.Quiet vaultId m.target →
      (∀ t' op, .call t' op ∈ ks₂ ++ ks₁ → ¬ op.Against vaultId m.target) →
        result = none ∨ result = m.target := by
  intro h
  let reading : List (Label Nat) := [.call 1 (.set "7" 1), .locked 1 0 none,
    .locked 1 0 (some "7"), .ret 1 (.set "7" 1) none, .call 2 (.get "7"), .locked 2 60 (some "7"),
    .locked 2 60 none]
  let read : World Nat := reading.foldl World.next (.start 60 1800)
  have before : Run Step (World.start 60 1800) reading.reverse read :=
    stepRun_of_playable _ reading (by decide)
  have during := stepRun_of_playable (read.next (.call 3 (.set "7" 2)))
    [.locked 3 60 none, .locked 3 60 (some "7"), .ret 3 (.set "7" 2) none,
      .locked 2 60 (some "7")] (by decide)
  have hquiet : read.Quiet "7" (some 2) := by
    intro t op hop
    by_cases ht : 2 < t
    · rw [threads_foldl ht (by decide)] at hop
      cases hop
    · obtain rfl | rfl | rfl : t = 0 ∨ t = 1 ∨ t = 2 := by omega
      all_goals cases hop
      exact id
  have hstale := h 60 1800 3 4 "7" (.set "7" 2) _ _ _ _ _ _ _ _ _ (some 1) before rfl
    ⟨by decide, rfl⟩ during (.tail _ (.head _)) ⟨by decide, rfl⟩
    (stepRun_of_playable _ [.locked 4 60 (some "7")] (by decide)) ⟨by decide, rfl⟩ hquiet ?_
  · revert hstale
    decide
  · intro t op hop
    rcases op with _ | _ | _ <;> simp at hop

end Heirloom.Backend.MultilevelCache
