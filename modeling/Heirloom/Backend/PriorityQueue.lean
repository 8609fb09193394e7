import Mathlib.Data.List.MinMax
import Mathlib.Data.List.Perm.Basic
import Mathlib.Data.Prod.Lex
import Heirloom.Backend.Admission

/-!
# The queue of work items

A push takes a ticket from an atomic counter and then, as a step of its own, puts its entry into a
heap behind a lock; a pop takes the greatest entry there is. Any number of pushes and pops take
turns, so entries may come into the heap in another order than that of their tickets.

Results:
1. `items_conserved`: in every run what has been pushed is in the heap, on its way there, or has
   been popped, each push once.
2. `pop_order`: as long as the tickets do not wrap around, a pop gives an item of the highest
   priority that waits, and among those the one with the first ticket. It does not come before an
   item of its priority whose push had returned when its own began, and a pop finds nothing only
   if nothing waits.
-/

namespace Heirloom.Backend.PriorityQueue

open Runs Admission

variable {T : Type}

/-! ## Entries -/

structure QueueEntry (T : Type) where
  priority : Priority
  sequence : UInt64
  item : T

/-- Higher priorities come first, and of one priority the entry of the older ticket. -/
def QueueEntry.cmp (a b : QueueEntry T) : Ordering :=
  (compare a.priority b.priority).then (compare b.sequence a.sequence)

/-- A push: how many had begun before, and what it brings. -/
structure Push (T : Type) where
  number : Nat
  priority : Priority
  item : T

/-- An entry with the number of its push. -/
structure Entry (T : Type) where
  number : Nat
  entry : QueueEntry T

def Entry.push (q : Entry T) : Push T := ⟨q.number, q.entry.priority, q.entry.item⟩

/-! ## Steps -/

structure World (T : Type) where
  heap : List (Entry T)
  /-- The pushes that have a ticket and wait for the lock. -/
  pending : List (Entry T)
  nextSequence : UInt64
  begun : Nat

def World.new : World T := ⟨[], [], 0, 0⟩

def World.len (w : World T) : Nat := w.heap.length

def World.isEmpty (w : World T) : Bool := w.len = 0

inductive Label (T : Type)
  | ticket (priority : Priority) (item : T)
  | insert (push : Push T)
  | pop (push : Push T)
  | popNone

inductive Step : World T → Label T → World T → Prop
  /-- `fetch_add` -/
  | ticket {w : World T} {priority : Priority} {item : T} :
      Step w (.ticket priority item) { w with
        pending := ⟨w.begun, priority, w.nextSequence, item⟩ :: w.pending
        nextSequence := w.nextSequence + 1
        begun := w.begun + 1 }
  | insert {w : World T} {l₁ l₂ : List (Entry T)} {q : Entry T} : w.pending = l₁ ++ q :: l₂ →
      Step w (.insert q.push) { w with heap := q :: w.heap, pending := l₁ ++ l₂ }
  /-- The heap gives an entry that is greatest. -/
  | pop {w : World T} {l₁ l₂ : List (Entry T)} {q : Entry T} : w.heap = l₁ ++ q :: l₂ →
      (∀ q' ∈ w.heap, (q'.entry.cmp q.entry).isLE) →
      Step w (.pop q.push) { w with heap := l₁ ++ l₂ }
  | popNone {w : World T} : w.heap = [] → Step w .popNone w

/-! ## What has happened -/

/-- The pushes that have begun, newest first. -/
def pushed : List (Label T) → List (Push T)
  | [] => []
  | .ticket priority item :: ks => ⟨(pushed ks).length, priority, item⟩ :: pushed ks
  | _ :: ks => pushed ks

/-- The pushes that have returned. -/
def returned : List (Label T) → List (Push T)
  | [] => []
  | .insert push :: ks => push :: returned ks
  | _ :: ks => returned ks

def popped : List (Label T) → List (Push T)
  | [] => []
  | .pop push :: ks => push :: popped ks
  | _ :: ks => popped ks

/-- The push has returned, and its item has not been popped. -/
def Waits (push : Push T) (ks : List (Label T)) : Prop := push ∈ returned ks ∧ push ∉ popped ks

/-- The queue, by its history. -/
structure Books (ks : List (Label T)) (w : World T) : Prop where
  pushes : (popped ks ++ (w.heap ++ w.pending).map Entry.push).Perm (pushed ks)
  returns : (popped ks ++ w.heap.map Entry.push).Perm (returned ks)
  begun : w.begun = (pushed ks).length
  next : w.nextSequence = UInt64.ofNat w.begun
  sequences : ∀ q ∈ w.heap ++ w.pending, q.entry.sequence = UInt64.ofNat q.number

section Steps

variable {ks : List (Label T)} {k : Label T} {w w' : World T}

theorem number_lt {push : Push T} (h : push ∈ pushed ks) : push.number < (pushed ks).length := by
  induction ks with
  | nil => cases h
  | cons k ks ih =>
      cases k with
      | ticket priority item =>
          rcases List.mem_cons.mp h with rfl | h
          · exact Nat.lt_succ_self _
          · exact Nat.lt_succ_of_lt (ih h)
      | insert push => exact ih h
      | pop push => exact ih h
      | popNone => exact ih h

theorem pushed_nodup : (pushed ks).Nodup := by
  induction ks with
  | nil => exact List.nodup_nil
  | cons k ks ih =>
      cases k with
      | ticket priority item =>
          exact List.nodup_cons.mpr ⟨fun h => Nat.lt_irrefl _ (number_lt h), ih⟩
      | insert push => exact ih
      | pop push => exact ih
      | popNone => exact ih

theorem Books.ticket {priority : Priority} {item : T} (h : Books ks w) :
    Books (.ticket priority item :: ks) { w with
      pending := ⟨w.begun, priority, w.nextSequence, item⟩ :: w.pending
      nextSequence := w.nextSequence + 1
      begun := w.begun + 1 } := by
  refine ⟨?_, h.returns, congrArg (· + 1) h.begun, ?_, fun q hq => ?_⟩
  · refine List.Perm.trans ?_ (h.pushes.cons ⟨(pushed ks).length, priority, item⟩)
    simpa [popped, Entry.push, h.begun] using
      @List.perm_middle _ ⟨(pushed ks).length, priority, item⟩
        (popped ks ++ w.heap.map Entry.push) (w.pending.map Entry.push)
  · rw [h.next, UInt64.ofNat_add]
    rfl
  · rcases List.mem_append.mp hq with hq | hq
    · exact h.sequences q (List.mem_append_left _ hq)
    · rcases List.mem_cons.mp hq with rfl | hq
      · exact h.next
      · exact h.sequences q (List.mem_append_right _ hq)

theorem Books.insert {l₁ l₂ : List (Entry T)} {q : Entry T} (h : Books ks w)
    (hpending : w.pending = l₁ ++ q :: l₂) :
    Books (.insert q.push :: ks) { w with heap := q :: w.heap, pending := l₁ ++ l₂ } := by
  refine ⟨?_, ?_, h.begun, h.next, fun q' hq => h.sequences q' ?_⟩
  · have hbefore := h.pushes
    rw [hpending] at hbefore
    refine List.Perm.trans ?_ hbefore
    refine List.Perm.append_left _ (List.Perm.map _ ?_)
    simpa using (@List.perm_middle _ q (w.heap ++ l₁) l₂).symm
  · exact List.perm_middle.trans (h.returns.cons _)
  · rw [hpending]
    simp only [List.mem_append, List.mem_cons] at hq ⊢
    rcases hq with (rfl | hq) | hq | hq
    · exact .inr (.inr (.inl rfl))
    · exact .inl hq
    · exact .inr (.inl hq)
    · exact .inr (.inr (.inr hq))

theorem Books.pop {l₁ l₂ : List (Entry T)} {q : Entry T} (h : Books ks w)
    (hheap : w.heap = l₁ ++ q :: l₂) :
    Books (.pop q.push :: ks) { w with heap := l₁ ++ l₂ } := by
  refine ⟨?_, ?_, h.begun, h.next, fun q' hq => h.sequences q' ?_⟩
  · have hbefore := h.pushes
    rw [hheap] at hbefore
    refine List.Perm.trans ?_ hbefore
    simpa [popped] using (@List.perm_middle _ q.push (popped ks ++ l₁.map Entry.push)
      (l₂.map Entry.push ++ w.pending.map Entry.push)).symm
  · have hbefore := h.returns
    rw [hheap] at hbefore
    refine List.Perm.trans ?_ hbefore
    simpa [popped] using (@List.perm_middle _ q.push (popped ks ++ l₁.map Entry.push)
      (l₂.map Entry.push)).symm
  · rw [hheap]
    simp only [List.mem_append, List.mem_cons] at hq ⊢
    rcases hq with (hq | hq) | hq
    · exact .inl (.inl hq)
    · exact .inl (.inr (.inr hq))
    · exact .inr hq

theorem books_of_run (hrun : Run Step .new ks w) : Books ks w := by
  refine hrun.invariantHistory (I := Books) ⟨.nil, .nil, rfl, rfl, by simp [World.new]⟩ ?_
  intro ks w k w' h hk
  cases hk with
  | ticket => exact h.ticket
  | insert hpending => exact h.insert hpending
  | pop hheap hmax => exact h.pop hheap
  | popNone hheap => exact ⟨h.pushes, h.returns, h.begun, h.next, h.sequences⟩

end Steps

/-! ## Results -/

section Results

variable {ks : List (Label T)} {w w' : World T} {push other : Push T} {a b : QueueEntry T}

theorem cmp_isLE_iff : (a.cmp b).isLE ↔
    a.priority < b.priority ∨ a.priority = b.priority ∧ b.sequence ≤ a.sequence := by
  unfold QueueEntry.cmp
  rw [Ordering.isLE_then_iff_or, compare_lt_iff_lt, compare_eq_iff_eq, Std.isLE_compare]

/-- What waits is in the heap. -/
theorem Books.waits_iff (h : Books ks w) : Waits push ks ↔ push ∈ w.heap.map Entry.push := by
  have hnodup : (popped ks ++ (w.heap ++ w.pending).map Entry.push).Nodup :=
    h.pushes.nodup_iff.mpr pushed_nodup
  constructor
  · rintro ⟨hreturned, hpopped⟩
    rcases List.mem_append.mp (h.returns.mem_iff.mpr hreturned) with hmem | hmem
    · exact absurd hmem hpopped
    · exact hmem
  · intro hmem
    refine ⟨h.returns.mem_iff.mp (List.mem_append_right _ hmem), fun hpopped => ?_⟩
    -- no push is both popped and in the heap
    refine List.disjoint_of_nodup_append hnodup hpopped ?_
    rw [List.map_append]
    exact List.mem_append_left _ hmem

/-- The order of the entries as a linear one. -/
def QueueEntry.key (a : QueueEntry T) : Priority ×ₗ Natᵒᵈ :=
  toLex (a.priority, OrderDual.toDual a.sequence.toNat)

theorem cmp_isLE_iff_key : (a.cmp b).isLE ↔ a.key ≤ b.key := by
  unfold QueueEntry.key
  rw [cmp_isLE_iff, Prod.Lex.toLex_le_toLex, OrderDual.toDual_le_toDual, UInt64.le_iff_toNat_le]

theorem exists_greatest {l : List (Entry T)} (h : l ≠ []) :
    ∃ q ∈ l, ∀ q' ∈ l, (q'.entry.cmp q.entry).isLE := by
  cases hmax : l.argmax (·.entry.key) with
  | none => exact absurd (List.argmax_eq_none.mp hmax) h
  | some q =>
      exact ⟨q, List.argmax_mem hmax, fun q' hq =>
        cmp_isLE_iff_key.mpr
          (List.le_of_mem_argmax (f := fun q : Entry T => q.entry.key) hq hmax)⟩

theorem length_pushed_le {later earlier : List (Label T)} :
    (pushed earlier).length ≤ (pushed (later ++ earlier)).length := by
  induction later with
  | nil => exact Nat.le_refl _
  | cons k later ih =>
      cases k with
      | ticket priority item => exact Nat.le_succ_of_le ih
      | insert push => exact ih
      | pop push => exact ih
      | popNone => exact ih

/-- What is pushed later has a later number. -/
theorem mem_pushed_append {later earlier : List (Label T)} (h : push ∈ pushed (later ++ earlier)) :
    push ∈ pushed earlier ∨ (pushed earlier).length ≤ push.number := by
  induction later with
  | nil => exact .inl h
  | cons k later ih =>
      cases k with
      | ticket priority item =>
          rcases List.mem_cons.mp h with rfl | h
          · exact .inr length_pushed_le
          · exact ih h
      | insert push => exact ih h
      | pop push => exact ih h
      | popNone => exact ih h

theorem mem_pushed_of_returned (h : Books ks w) (hreturned : push ∈ returned ks) :
    push ∈ pushed ks := by
  refine h.pushes.mem_iff.mp ?_
  rcases List.mem_append.mp (h.returns.mem_iff.mpr hreturned) with hmem | hmem
  · exact List.mem_append_left _ hmem
  · rw [List.map_append]
    exact List.mem_append_right _ (List.mem_append_left _ hmem)

/-- In every run, what has been pushed is in the heap, on its way there or popped, and no push is
there twice. -/
theorem items_conserved (hrun : Run Step .new ks w) :
    (popped ks ++ (w.heap ++ w.pending).map Entry.push).Perm (pushed ks) ∧ (pushed ks).Nodup :=
  ⟨(books_of_run hrun).pushes, pushed_nodup⟩

/-- Two pushes whose entries have come into the heap in the other order. -/
def swapped : List (Label Nat) :=
  [.insert ⟨0, .normal, 7⟩, .insert ⟨1, .normal, 8⟩, .ticket .normal 8, .ticket .normal 7]

def swappedHeap : World Nat :=
  ⟨[⟨0, .normal, 0, 7⟩, ⟨1, .normal, 1, 8⟩], [], 2, 2⟩

theorem run_swapped : Run Step .new swapped swappedHeap :=
  .next (.next (.next (.next .start .ticket) .ticket)
    (@Step.insert _ _ [] [⟨0, .normal, 0, 7⟩] ⟨1, .normal, 1, 8⟩ rfl))
    (@Step.insert _ _ [] [] ⟨0, .normal, 0, 7⟩ rfl)

theorem items_conserved_swapped :
    (popped swapped ++ (swappedHeap.heap ++ swappedHeap.pending).map Entry.push).Perm
      (pushed swapped) ∧ (pushed swapped).Nodup :=
  items_conserved run_swapped

theorem pop_le (h : Books ks w) (hlt : (pushed ks).length ≤ 2 ^ 64)
    (hpop : Step w (.pop push) w') (hwaits : Waits other ks) :
    other.priority < push.priority ∨
      other.priority = push.priority ∧ push.number ≤ other.number := by
  -- no ticket has wrapped around, so the sequences are the numbers
  have hsequence : ∀ q ∈ w.heap, q.entry.sequence.toNat = q.number := by
    intro q hq
    have hmem : q.push ∈ pushed ks := h.pushes.mem_iff.mp (List.mem_append_right _
      (List.mem_map_of_mem (List.mem_append_left _ hq)))
    have hnumber : q.number < (pushed ks).length := number_lt hmem
    rw [h.sequences q (List.mem_append_left _ hq), UInt64.toNat_ofNat']
    exact Nat.mod_eq_of_lt (by omega)
  obtain ⟨q', hq', rfl⟩ := List.mem_map.mp (h.waits_iff.mp hwaits)
  cases hpop with
  | @pop l₁ l₂ q hheap hmax =>
      have hq : q ∈ w.heap := by simp [hheap]
      have hle := cmp_isLE_iff.mp (hmax q' hq')
      rw [UInt64.le_iff_toNat_le, hsequence q hq, hsequence q' hq'] at hle
      exact hle

/-- As long as the tickets do not wrap around, a pop gives what waits at the highest priority with
the first ticket, and never something that began after another item of its priority had come to
wait; it gives nothing exactly if nothing waits. -/
theorem pop_order (hrun : Run Step .new ks w) (hlt : (pushed ks).length ≤ 2 ^ 64) :
    (∀ push w', Step w (.pop push) w' → Waits push ks ∧ ∀ other, Waits other ks →
      (other.priority < push.priority ∨
        other.priority = push.priority ∧ push.number ≤ other.number) ∧
      ∀ later earlier, ks = later ++ earlier → other ∈ returned earlier → push ∉ pushed earlier →
        other.priority < push.priority) ∧
    ((∃ w', Step w .popNone w') ↔ ∀ push, ¬ Waits push ks) ∧
    ((∃ push w', Step w (.pop push) w') ↔ ∃ push, Waits push ks) := by
  have hbooks := books_of_run hrun
  refine ⟨fun push w' hpop => ?_, ⟨?_, fun hnone => ?_⟩, ⟨?_, ?_⟩⟩
  · have hpush : Waits push ks := by
      rw [hbooks.waits_iff]
      cases hpop with
      | pop hheap hmax => exact List.mem_map_of_mem (by simp [hheap])
    refine ⟨hpush, fun other hwaits => ⟨pop_le hbooks hlt hpop hwaits, ?_⟩⟩
    rintro later earlier rfl hreturned hlater
    obtain ⟨u, hearlier, -⟩ := hrun.cut
    -- the tickets of the past are lower than any that were given since
    have hother : other.number < (pushed earlier).length := number_lt (mem_pushed_of_returned
      (books_of_run hearlier) hreturned)
    rcases mem_pushed_append (mem_pushed_of_returned hbooks hpush.1) with hbefore | hafter
    · exact absurd hbefore hlater
    · rcases pop_le hbooks hlt hpop hwaits with hlt' | ⟨-, hle⟩
      · exact hlt'
      · omega
  · rintro ⟨w', hk⟩ push hwaits
    cases hk with
    | popNone hheap =>
        rw [hbooks.waits_iff, hheap] at hwaits
        cases hwaits
  · refine ⟨w, .popNone (List.eq_nil_iff_forall_not_mem.mpr fun q hq => hnone q.push ?_)⟩
    exact hbooks.waits_iff.mpr (List.mem_map_of_mem hq)
  · rintro ⟨push, w', hk⟩
    refine ⟨push, hbooks.waits_iff.mpr ?_⟩
    cases hk with
    | pop hheap hmax => exact List.mem_map_of_mem (by simp [hheap])
  · rintro ⟨push, hwaits⟩
    obtain ⟨q, hq, -⟩ := List.mem_map.mp (hbooks.waits_iff.mp hwaits)
    obtain ⟨m, hm, hmax⟩ := exists_greatest (List.ne_nil_of_mem hq)
    obtain ⟨l₁, l₂, hheap⟩ := List.append_of_mem hm
    exact ⟨m.push, _, .pop hheap hmax⟩

/-- The first push goes first. -/
theorem pop_order_swapped : Waits ⟨0, .normal, 7⟩ swapped :=
  ((pop_order run_swapped (by decide)).1 ⟨0, .normal, 7⟩ ⟨[⟨1, .normal, 1, 8⟩], [], 2, 2⟩
    (@Step.pop _ swappedHeap [] [⟨1, .normal, 1, 8⟩] ⟨0, .normal, 0, 7⟩ rfl (by
      simp only [swappedHeap, List.forall_mem_cons]
      exact ⟨by decide, by decide, by simp⟩))).1

end Results

end Heirloom.Backend.PriorityQueue
