import Mathlib.Data.List.Basic
import Mathlib.Logic.Function.Iterate
import Mathlib.Order.Basic

/-!
# Ring buffers

A ring keeps the last `cap` entries of a growing list in `cap` slots: the slots are filled in
order, and a full ring overwrites its oldest entry, whose place is the head. `Holds` says that a
ring is that of a list; writing an entry appends it (`Holds.push`), and reading the places in
their logical order gives the window (`Holds.read`), whole or in pages (`flatMap_pages`).
-/

namespace RingBuffer

variable {α : Type} {cap i n size : Nat} {a : α} {xs l : List α}

structure Buffer (α : Type) where
  slots : Nat → Option α
  len : Nat
  head : Nat

variable {r : Buffer α}

/-- Writes an entry to the first free slot, or to the place of the oldest entry. -/
def Buffer.push (cap : Nat) (r : Buffer α) (a : α) : Buffer α :=
  if r.len < cap then ⟨Function.update r.slots r.len (some a), r.len + 1, r.head⟩
  else ⟨Function.update r.slots r.head (some a), r.len, (r.head + 1) % cap⟩

/-- The slot of the entry that is the `i`-th from the oldest. -/
def Buffer.place (cap : Nat) (r : Buffer α) (i : Nat) : Nat :=
  if r.len < cap then i else (r.head + i) % cap

/-- The entries from the `start`-th to before the `stop`-th, as far as they are there. -/
def Buffer.read (cap : Nat) (r : Buffer α) (start stop : Nat) : List α :=
  (List.range' start (stop - start)).filterMap fun i => r.slots (r.place cap i)

/-- The last `cap` elements. -/
def window (cap : Nat) (xs : List α) : List α := xs.drop (xs.length - cap)

/-- The ring keeps the end of the list: an entry is in the slot of its index. -/
structure Holds (cap : Nat) (r : Buffer α) (xs : List α) : Prop where
  len_eq : r.len = min xs.length cap
  head_eq : r.head = (xs.length - cap) % cap
  slot_eq : ∀ i, xs.length - cap ≤ i → i < xs.length → r.slots (i % cap) = xs[i]?

theorem length_window : (window cap xs).length = min xs.length cap := by
  rw [window, List.length_drop]
  omega

theorem window_map {β : Type} {f : α → β} : window cap (xs.map f) = (window cap xs).map f := by
  simp [window]

/-- The end of a longer window. -/
theorem drop_window {m : Nat} (h : m ≤ cap) :
    (window cap xs).drop ((window cap xs).length - m) = window m xs := by
  rw [length_window, window, window, List.drop_drop]
  congr 1
  omega

theorem Holds.len_window (h : Holds cap r xs) : r.len = (window cap xs).length := by
  rw [h.len_eq, length_window]

theorem holds_nil (hlen : r.len = 0) (hhead : r.head = 0) : Holds cap r ([] : List α) :=
  ⟨by simp [hlen], by simp [hhead], fun _ _ hi => absurd hi (Nat.not_lt_zero _)⟩

/-- The slot that is written is that of the next index. -/
theorem Holds.push (h : Holds cap r xs) : Holds cap (r.push cap a) (xs ++ [a]) := by
  have hslots : ∀ i, xs.length + 1 - cap ≤ i → i < xs.length + 1 →
      Function.update r.slots (xs.length % cap) (some a) (i % cap) = (xs ++ [a])[i]? := by
    intro i hlow hhigh
    rcases Nat.lt_succ_iff_lt_or_eq.mp hhigh with hlt | rfl
    · -- an older entry is within `cap` places, so in another slot
      have hne : i % cap ≠ xs.length % cap := by
        intro hsame
        have hmod := Nat.sub_mod_eq_zero_of_mod_eq hsame.symm
        rw [Nat.mod_eq_of_lt (by omega)] at hmod
        omega
      rw [Function.update_of_ne hne, h.slot_eq i (by omega) hlt, List.getElem?_append_left hlt]
    · rw [Function.update_self, List.getElem?_concat_length]
  have hlen := h.len_eq
  have hhead := h.head_eq
  unfold Buffer.push
  split
  case isTrue hroom =>
    have hshort : xs.length < cap := by omega
    have hindex : r.len = xs.length % cap := by
      rw [Nat.mod_eq_of_lt hshort]
      omega
    refine ⟨?_, ?_, ?_⟩
    · rw [List.length_append, List.length_singleton]
      show r.len + 1 = _
      omega
    · rw [List.length_append, List.length_singleton]
      show r.head = _
      rw [hhead, Nat.sub_eq_zero_of_le (Nat.le_of_lt hshort), Nat.sub_eq_zero_of_le hshort]
    · intro i hlow hhigh
      rw [List.length_append, List.length_singleton] at hlow hhigh
      show Function.update r.slots r.len (some a) (i % cap) = _
      rw [hindex]
      exact hslots i hlow hhigh
  case isFalse hfull =>
    have hlong : cap ≤ xs.length := by omega
    have hindex : r.head = xs.length % cap := by
      rw [hhead, ← Nat.add_mod_right (xs.length - cap) cap, Nat.sub_add_cancel hlong]
    refine ⟨?_, ?_, ?_⟩
    · rw [List.length_append, List.length_singleton]
      show r.len = _
      omega
    · rw [List.length_append, List.length_singleton]
      show (r.head + 1) % cap = _
      rw [hhead, Nat.mod_add_mod]
      congr 1
      omega
    · intro i hlow hhigh
      rw [List.length_append, List.length_singleton] at hlow hhigh
      show Function.update r.slots r.head (some a) (i % cap) = _
      rw [hindex]
      exact hslots i hlow hhigh

/-- Writing an entry several times appends it as often. -/
theorem Holds.iterate_push (h : Holds cap r xs) :
    Holds cap ((fun r => r.push cap a)^[n] r) (xs ++ List.replicate n a) := by
  induction n with
  | zero => simpa using h
  | succ n ih =>
      rw [Function.iterate_succ_apply', List.replicate_succ', ← List.append_assoc]
      exact ih.push

/-- The places in their logical order hold the window. -/
theorem Holds.place (h : Holds cap r xs) (hi : i < r.len) :
    r.slots (r.place cap i) = (window cap xs)[i]? := by
  have hlen := h.len_eq
  rw [window, List.getElem?_drop]
  have hslot : r.place cap i = (xs.length - cap + i) % cap := by
    unfold Buffer.place
    split
    case isTrue hroom =>
      rw [Nat.sub_eq_zero_of_le (by omega), Nat.zero_add, Nat.mod_eq_of_lt (by omega)]
    case isFalse => rw [h.head_eq, Nat.mod_add_mod]
  rw [hslot]
  exact h.slot_eq _ (Nat.le_add_right _ _) (by omega)

/-- The oldest of the last `m` entries. -/
theorem Holds.first_place (h : Holds cap r xs) {m : Nat} (hm : m ≤ cap) (hpos : 0 < m)
    (hlen : 0 < r.len) :
    r.slots (r.place cap (r.len - min r.len m)) = (window m xs).head? := by
  rw [h.place (by omega), ← drop_window hm, List.head?_drop, h.len_window]
  congr 1
  omega

/-- The newest entry. -/
theorem Holds.last_place (h : Holds cap r xs) {m : Nat} (hm : m ≤ cap) (hpos : 0 < m)
    (hlen : 0 < r.len) :
    r.slots (r.place cap (r.len - 1)) = (window m xs).getLast? := by
  have hlong := h.len_window
  rw [h.place (by omega), ← drop_window hm, List.getLast?_drop, if_neg (by omega),
    List.getLast?_eq_getElem?, hlong]

/-- The ends of an ordered list of two entries at least are in order. -/
theorem ends_of_pairwise {R : α → α → Prop} (h : l.Pairwise R) (hlen : 2 ≤ l.length) :
    ∃ first last, l.head? = some first ∧ l.getLast? = some last ∧ R first last := by
  cases l with
  | nil => simp at hlen
  | cons first rest =>
      have hrest : rest ≠ [] := List.ne_nil_of_length_pos (Nat.le_of_succ_le_succ hlen)
      refine ⟨first, rest.getLast hrest, rfl, ?_, ?_⟩
      · rw [List.getLast?_cons_of_ne_nil hrest, List.getLast?_eq_some_getLast hrest]
      · exact (List.pairwise_cons.mp h).1 _ (List.getLast_mem hrest)

theorem window_sublist : List.Sublist (window cap xs) xs := List.drop_sublist _ _

theorem filterMap_getElem? (l : List α) (start n : Nat) :
    (List.range' start n).filterMap (fun i => l[i]?) = (l.drop start).take n := by
  induction n generalizing start with
  | zero => simp
  | succ n ih =>
      rw [List.range'_succ, List.filterMap_cons, ih]
      rcases Nat.lt_or_ge start l.length with hlt | hge
      · rw [List.getElem?_eq_getElem hlt, List.drop_eq_getElem_cons hlt, List.take_succ_cons]
      · rw [List.getElem?_eq_none hge, List.drop_of_length_le hge,
          List.drop_of_length_le (Nat.le_succ_of_le hge), List.take_nil, List.take_nil]

/-- Reading a range of places gives that part of the window. -/
theorem Holds.read (h : Holds cap r xs) {start stop : Nat} (hstop : stop ≤ r.len) :
    r.read cap start stop = ((window cap xs).drop start).take (stop - start) := by
  rw [← filterMap_getElem?, Buffer.read]
  refine List.filterMap_congr fun i hi => h.place ?_
  obtain ⟨hlow, hhigh⟩ := List.mem_range'_1.mp hi
  omega

/-- The pages of a list are the list. -/
theorem flatMap_pages (l : List α) (size n : Nat) :
    ((List.range n).flatMap fun page => (l.drop (page * size)).take size) = l.take (n * size) := by
  induction n with
  | zero => simp
  | succ n ih =>
      rw [List.range_succ, List.flatMap_append, ih, List.flatMap_singleton, Nat.succ_mul,
        List.take_add]

/-- The pages that are not empty are those that start within the list. -/
theorem exists_pages (l : List α) (hsize : 0 < size) : ∃ pages : List (List α),
    pages.flatten = l ∧ [] ∉ pages ∧ (∀ page, page < pages.length ↔ page * size < l.length) ∧
      ∀ page x, pages[page]? = some x → x = (l.drop (page * size)).take size := by
  have hcount : ∀ page, page < (l.length + size - 1) / size ↔ page * size < l.length := by
    intro page
    rw [← Nat.add_one_le_iff, Nat.le_div_iff_mul_le hsize, Nat.add_mul]
    omega
  refine ⟨(List.range ((l.length + size - 1) / size)).map fun page =>
    (l.drop (page * size)).take size, ?_, ?_, by simpa using hcount, ?_⟩
  · rw [← List.flatMap_def, flatMap_pages]
    exact List.take_of_length_le (Nat.not_lt.mp fun h => Nat.lt_irrefl _ ((hcount _).mpr h))
  · intro hnil
    obtain ⟨page, hpage, hempty⟩ := List.mem_map.mp hnil
    have hwithin := (hcount page).mp (List.mem_range.mp hpage)
    have hlen := congrArg List.length hempty
    rw [List.length_take, List.length_drop, List.length_nil] at hlen
    omega
  · intro page x hx
    rw [List.getElem?_map] at hx
    obtain ⟨p, hp, rfl⟩ := Option.map_eq_some_iff.mp hx
    obtain ⟨_, rfl⟩ := List.getElem?_eq_some_iff.mp hp
    simp

end RingBuffer
