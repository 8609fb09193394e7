import Mathlib.Data.List.Induction
import Mathlib.Algebra.Order.Ring.Int

/-!
# Totals over windows

A total over a period of time, as rate limits keep it: the first entry opens a window,
later entries are added to it until it ends, and the first entry after its end opens the
next one. `tally` is the window that a whole history of entries leaves open.

Such windows do not move with the clock, so a limit on each of them is not one on every
period of the same length: `totalBetween_le` is the bound that remains, twice the limit.
-/

namespace Windows

/-- An open window: the time it ends, and what has been entered in it. -/
structure Window where
  resetAt : Nat
  total : Int
deriving DecidableEq

/-- The window after the entry of an amount at a time. -/
def enter (period : Nat) (w : Option Window) (entry : Nat × Int) : Window :=
  match w with
  | none => ⟨entry.1 + period, entry.2⟩
  | some w =>
      if w.resetAt ≤ entry.1 then ⟨entry.1 + period, entry.2⟩
      else ⟨w.resetAt, w.total + entry.2⟩

/-- The window left open by entries, oldest first. -/
def tally (period : Nat) (entries : List (Nat × Int)) : Option Window :=
  entries.foldl (fun w entry => some (enter period w entry)) none

/-- No window is open at the given time. -/
def Over (w : Option Window) (now : Nat) : Prop := ∀ x, w = some x → x.resetAt ≤ now

variable {period now : Nat} {w : Option Window} {entry : Nat × Int} {entries : List (Nat × Int)}

/-- An entry after the end of a window opens a new one. -/
theorem enter_of_over (h : Over w entry.1) :
    enter period w entry = ⟨entry.1 + period, entry.2⟩ := by
  cases w with
  | none => rfl
  | some x => exact if_pos (h x rfl)

/-- A window ends within the period after one of its entries or when it would have ended. -/
theorem enter_resetAt_le (hw : Over w now) (hentry : entry.1 + period ≤ now) :
    (enter period w entry).resetAt ≤ now := by
  cases w with
  | none => exact hentry
  | some x =>
      show (if x.resetAt ≤ entry.1 then _ else _ : Window).resetAt ≤ now
      split
      · exact hentry
      · exact hw x rfl

theorem tally_append_singleton :
    tally period (entries ++ [entry]) = some (enter period (tally period entries) entry) := by
  simp [tally]

/-- Entries that are older than the period leave no window open. -/
theorem over_tally (h : ∀ entry ∈ entries, entry.1 + period ≤ now) :
    Over (tally period entries) now := by
  induction entries using List.reverseRecOn with
  | nil => exact fun x hx => by cases hx
  | append_singleton entries entry ih =>
      rw [tally_append_singleton]
      rintro x ⟨rfl⟩
      have hentries := ih fun y hy => h y (List.mem_append_left _ hy)
      exact enter_resetAt_le hentries (h entry (by simp))

/-! ## A limit on the windows -/

/-- The window left open by entries, oldest first, that come after the window `w`. -/
def openAfter (period : Nat) (w : Option Window) (entries : List (Nat × Int)) : Option Window :=
  entries.foldl (fun w entry => some (enter period w entry)) w

/-- With each entry the total of its window stays within the limit. -/
def Within (period : Nat) (limit : Int) : Option Window → List (Nat × Int) → Prop
  | _, [] => True
  | w, entry :: entries =>
      (enter period w entry).total ≤ limit ∧
        Within period limit (some (enter period w entry)) entries

/-- What the entries from `start` to `stop`, both included, add up to. -/
def totalBetween (start stop : Nat) (entries : List (Nat × Int)) : Int :=
  ((entries.filter fun entry => start ≤ entry.1 ∧ entry.1 ≤ stop).map (·.2)).sum

/-- What the entries up to `stop` add up to. -/
def totalUpTo (stop : Nat) (entries : List (Nat × Int)) : Int :=
  ((entries.filter fun entry => entry.1 ≤ stop).map (·.2)).sum

/-- The entries come in the order of their times. -/
abbrev InOrder (entries : List (Nat × Int)) : Prop := entries.Pairwise fun p q => p.1 ≤ q.1

variable {start stop : Nat} {limit limit' : Int} {x : Window}

theorem openAfter_append_singleton : openAfter period w (entries ++ [entry]) =
    some (enter period (openAfter period w entries) entry) := by
  simp [openAfter]

theorem within_append_singleton : Within period limit w (entries ++ [entry]) ↔
    Within period limit w entries ∧
      (enter period (openAfter period w entries) entry).total ≤ limit := by
  induction entries generalizing w with
  | nil => simp [Within, openAfter]
  | cons first rest ih =>
      rw [List.cons_append, Within, Within, ih, and_assoc]
      rfl

theorem Within.mono (h : Within period limit w entries) (hle : limit ≤ limit') :
    Within period limit' w entries := by
  induction entries generalizing w with
  | nil => trivial
  | cons first rest ih => exact ⟨h.1.trans hle, ih h.2⟩

theorem enter_of_lt (h : entry.1 < x.resetAt) :
    enter period (some x) entry = ⟨x.resetAt, x.total + entry.2⟩ :=
  if_neg (not_le.mpr h)

/-- A window is open at the time of an entry in it. -/
theorem lt_enter_resetAt (hperiod : 0 < period) : entry.1 < (enter period w entry).resetAt := by
  cases w with
  | none => exact Nat.lt_add_of_pos_right hperiod
  | some x =>
      show entry.1 < (if x.resetAt ≤ entry.1 then _ else _ : Window).resetAt
      split
      · exact Nat.lt_add_of_pos_right hperiod
      · next h => exact not_le.mp h

/-- An entry is part of the total of its window. -/
theorem le_enter_total (hw : ∀ x, w = some x → 0 ≤ x.total) :
    entry.2 ≤ (enter period w entry).total := by
  cases w with
  | none => exact le_rfl
  | some x =>
      show entry.2 ≤ (if x.resetAt ≤ entry.1 then _ else _ : Window).total
      split
      · exact le_rfl
      · exact le_add_of_nonneg_left (hw x rfl)

theorem totalUpTo_cons_of_le (h : entry.1 ≤ stop) :
    totalUpTo stop (entry :: entries) = entry.2 + totalUpTo stop entries := by
  simp [totalUpTo, h]

/-- Nothing is entered up to a time before the first entry. -/
theorem totalUpTo_eq_zero (hsorted : InOrder (entry :: entries)) (h : stop < entry.1) :
    totalUpTo stop (entry :: entries) = 0 := by
  have hnone : (entry :: entries).filter (fun p => p.1 ≤ stop) = [] := by
    refine List.filter_eq_nil_iff.mpr fun p hp => ?_
    have hle : entry.1 ≤ p.1 := by
      rcases List.mem_cons.mp hp with rfl | hp
      · exact le_rfl
      · exact (List.pairwise_cons.mp hsorted).1 p hp
    simpa using h.trans_le hle
  rw [totalUpTo, hnone]
  rfl

/-- Up to the end of a window nothing goes beyond what is left of its limit. -/
theorem totalUpTo_le_rest (h : Within period limit (some x) entries) (hsorted : InOrder entries)
    (hx : x.total ≤ limit) (hstop : stop < x.resetAt) :
    totalUpTo stop entries ≤ limit - x.total := by
  induction entries generalizing x with
  | nil => exact sub_nonneg.mpr hx
  | cons first rest ih =>
      rcases Nat.lt_or_ge stop first.1 with hlate | hin
      · rw [totalUpTo_eq_zero hsorted hlate]
        exact sub_nonneg.mpr hx
      · obtain ⟨htotal, hrest⟩ := h
        rw [enter_of_lt (hin.trans_lt hstop)] at htotal hrest
        have hnext := ih hrest hsorted.of_cons htotal hstop
        rw [totalUpTo_cons_of_le hin]
        dsimp only at hnext
        omega

/-- Within a period of the end of a window, at most one more window is opened. -/
theorem totalUpTo_le (h : Within period limit (some x) entries) (hsorted : InOrder entries)
    (hx : x.total ≤ limit) (hlimit : 0 ≤ limit) (hstop : stop < x.resetAt + period) :
    totalUpTo stop entries ≤ limit - x.total + limit := by
  have hleft : 0 ≤ limit - x.total + limit := add_nonneg (sub_nonneg.mpr hx) hlimit
  induction entries generalizing x with
  | nil => exact hleft
  | cons first rest ih =>
      rcases Nat.lt_or_ge stop first.1 with hlate | hin
      · rw [totalUpTo_eq_zero hsorted hlate]
        exact hleft
      · obtain ⟨htotal, hrest⟩ := h
        rw [totalUpTo_cons_of_le hin]
        rcases Nat.lt_or_ge first.1 x.resetAt with hopen | hover
        · rw [enter_of_lt hopen] at htotal hrest
          have hnext := ih hrest hsorted.of_cons htotal hstop (by dsimp only at htotal ⊢; omega)
          dsimp only at hnext
          omega
        · -- the entry opens the one window more
          rw [enter_of_over (fun y hy => Option.some.inj hy ▸ hover)] at htotal hrest
          have hnext := totalUpTo_le_rest hrest hsorted.of_cons htotal
            (show stop < first.1 + period by omega)
          dsimp only at hnext
          omega

/-- What is entered within any one period is at most twice the limit of a window: the period
meets two windows at most. -/
theorem totalBetween_le (h : Within period limit w entries) (hsorted : InOrder entries)
    (hentries : ∀ entry ∈ entries, 0 ≤ entry.2) (hw : ∀ x, w = some x → 0 ≤ x.total)
    (hlimit : 0 ≤ limit) (hperiod : 0 < period) :
    totalBetween start (start + period) entries ≤ 2 * limit := by
  induction entries generalizing w with
  | nil => simpa [totalBetween] using hlimit
  | cons first rest ih =>
      obtain ⟨htotal, hrest⟩ := h
      obtain ⟨hfirst, hothers⟩ := List.forall_mem_cons.mp hentries
      have hpart : first.2 ≤ (enter period w first).total := le_enter_total hw
      rcases Nat.lt_or_ge first.1 start with hearly | hin
      · have hskip : totalBetween start (start + period) (first :: rest) =
            totalBetween start (start + period) rest := by
          simp [totalBetween, not_le.mpr hearly]
        rw [hskip]
        exact ih hrest hsorted.of_cons hothers fun x hx => Option.some.inj hx ▸ hfirst.trans hpart
      · -- from here on every entry counts that is not too late
        have hall : totalBetween start (start + period) (first :: rest) =
            totalUpTo (start + period) (first :: rest) := by
          refine congrArg (fun l : List (Nat × Int) => (l.map (·.2)).sum) (List.filter_congr ?_)
          intro p hp
          have hle : start ≤ p.1 := by
            rcases List.mem_cons.mp hp with rfl | hp
            · exact hin
            · exact hin.trans ((List.pairwise_cons.mp hsorted).1 p hp)
          simp [hle]
        rw [hall]
        rcases Nat.lt_or_ge (start + period) first.1 with hlate | hsoon
        · rw [totalUpTo_eq_zero hsorted hlate]
          omega
        · have hopen : first.1 < (enter period w first).resetAt := lt_enter_resetAt hperiod
          have hnext := totalUpTo_le hrest hsorted.of_cons htotal hlimit
            (show start + period < (enter period w first).resetAt + period by omega)
          rw [totalUpTo_cons_of_le hsoon]
          omega

end Windows
