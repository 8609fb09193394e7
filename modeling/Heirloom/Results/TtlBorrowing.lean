import Heirloom.System
import Mathlib.Algebra.BigOperators.Group.Finset.Basic

/-!
# Borrowing time

One vault may borrow time from another and give it back. Along every sequence of
such calls, from any reachable state:

* a borrow keeps the sum of all deadlines exactly if neither of its two sides
  saturates, or both do by the same amount;
* giving the time back only pays the lender, so both deadlines are restored
  exactly if the borrower's had nowhere to go in the first place;
* a borrow stays on record until it is given back as long as no vault borrows
  twice: there is one record for each borrower.
-/

namespace Heirloom

open Transaction Runs

/-- The deadlines of all vaults together. -/
def State.totalDeadline (s : State) : Nat :=
  ∑ id ∈ Finset.range (s.count + 1), (s.vault id).elim 0 Vault.deadline

/-- The borrows of vault `b` in a history, newest first, that have not been given back. -/
def outstanding (b : Nat) : List Event → List TtlBorrowRecord
  | [] => []
  | .call e (.checkIn (.borrowTtl borrower lender _ seconds)) :: ks =>
      if borrower = b then ⟨b, lender, seconds, e.timestamp, false⟩ :: outstanding b ks
      else outstanding b ks
  | .call _ (.checkIn (.repayTtlBorrow borrower _)) :: ks =>
      if borrower = b then (outstanding b ks).tail else outstanding b ks
  | _ :: ks => outstanding b ks

/-- Time is only borrowed and given back, and nobody borrows before it has given back. -/
def BorrowsOnce (s : State) (_ : Env) : Call → Prop
  | .checkIn (.borrowTtl borrower _ _ _) =>
      ∀ r, s.get (.ttlBorrow borrower) = some r → r.repaid = true
  | .checkIn (.repayTtlBorrow _ _) => True
  | _ => False

/-- What the borrower gains is what the lender loses: neither time leaves `u64`, or both are cut by
the same amount. -/
def ExactBorrow (borrower lender : Vault) (seconds : Nat) : Prop :=
  (seconds ≤ lender.lastCheckIn ∧ borrower.lastCheckIn + seconds ≤ u64Max) ∨
    (lender.lastCheckIn < seconds ∧ borrower.lastCheckIn + lender.lastCheckIn = u64Max)

section Borrowing

variable {e : Env} {s t : State} {b l x : Nat} {caller : Address} {vb vl : Vault}

/-- All that a successful borrow does. -/
structure Borrowed (e : Env) (b l x : Nat) (vb vl : Vault) (s t : State) : Prop where
  borrower : s.vault b = some vb
  lender : s.vault l = some vl
  ne : b ≠ l
  positive : x ≠ 0
  deadline : vl.deadline ≤ u64Max
  remaining : x < vl.deadline - e.timestamp
  vaults : ∀ i, t.vault i =
    if i = l then some (vl.withLastCheckIn (vl.lastCheckIn - x))
    else if i = b then some (vb.withLastCheckIn (saturatingAdd64 vb.lastCheckIn x))
    else s.vault i
  records : ∀ i, t.get (.ttlBorrow i) =
    if i = b then some ⟨b, l, x, e.timestamp, false⟩ else s.get (.ttlBorrow i)
  count : t.count = s.count

theorem borrowTtl_spec :
    wp (borrowTtl b l caller x) (fun _ t => ∃ vb vl, Borrowed e b l x vb vl s t) e s := by
  simp [borrowTtl]
  intro _ _ hpositive hne vb hborrower _ _ vl hlender _ hdeadline hremaining
  refine ⟨vb, vl, hborrower, hlender, hne, hpositive, hdeadline, hremaining, fun i => ?_,
    fun i => ?_, ?_⟩
  · by_cases hl : i = l
    · subst hl
      simp
    · by_cases hb : i = b
      · subst hb
        simp [hl]
      · simp [hl, hb]
  · by_cases hb : i = b
    · subst hb
      simp
    · simp [hb]
  · simp [State.count]

/-- All that giving borrowed time back does. -/
structure Repaid (b : Nat) (r : TtlBorrowRecord) (vl : Vault) (s t : State) : Prop where
  record : s.get (.ttlBorrow b) = some r
  unpaid : r.repaid = false
  lender : s.vault r.lenderVaultId = some vl
  vaults : ∀ i, t.vault i =
    if i = r.lenderVaultId then
      some (vl.withLastCheckIn (saturatingAdd64 vl.lastCheckIn r.borrowedSeconds))
    else s.vault i
  records : ∀ i, t.get (.ttlBorrow i) =
    if i = b then some { r with repaid := true } else s.get (.ttlBorrow i)

theorem repayTtlBorrow_spec :
    wp (repayTtlBorrow b caller) (fun _ t => ∃ r vl, Repaid b r vl s t) e s := by
  simp [repayTtlBorrow]
  intro _ _ _ _ r hrecord hunpaid vl hlender
  refine ⟨r, vl, hrecord, hunpaid, hlender, fun i => ?_, fun i => ?_⟩
  · by_cases hl : i = r.lenderVaultId
    · subst hl
      simp
    · simp [hl]
  · by_cases hb : i = b
    · subst hb
      simp
    · simp [hb]

/-! ## The sum of all deadlines -/

/-- Two terms of a sum change, the others stay. -/
theorem sum_of_two {f g : Nat → Nat} {S : Finset Nat} (hb : b ∈ S) (hl : l ∈ S) (hne : b ≠ l)
    (hsame : ∀ i, i ≠ b → i ≠ l → g i = f i) :
    ∑ i ∈ S, g i + (f b + f l) = ∑ i ∈ S, f i + (g b + g l) := by
  have hl' : l ∈ S.erase b := Finset.mem_erase.mpr ⟨hne.symm, hl⟩
  have hrest : ∑ i ∈ (S.erase b).erase l, g i = ∑ i ∈ (S.erase b).erase l, f i := by
    refine Finset.sum_congr rfl fun i hi => hsame i ?_ ?_
    · exact (Finset.mem_erase.mp (Finset.mem_erase.mp hi).2).1
    · exact (Finset.mem_erase.mp hi).1
  rw [← Finset.add_sum_erase S g hb, ← Finset.add_sum_erase _ g hl', ← Finset.add_sum_erase S f hb,
    ← Finset.add_sum_erase _ f hl', hrest]
  omega

theorem Borrowed.total (h : Borrowed e b l x vb vl s t) (hs : s.Numbered) :
    t.totalDeadline + (vb.deadline + vl.deadline) = s.totalDeadline +
      (saturatingAdd64 vb.lastCheckIn x + vb.checkInInterval +
        (vl.lastCheckIn - x + vl.checkInInterval)) := by
  have hrange : ∀ {i v}, s.vault i = some v → i ∈ Finset.range (s.count + 1) := by
    intro i v hv
    by_contra hout
    have hnone := hs i (by simpa [Nat.lt_succ_iff] using hout)
    simp [hv] at hnone
  have hsum := sum_of_two (f := fun i => (s.vault i).elim 0 Vault.deadline)
    (g := fun i => (t.vault i).elim 0 Vault.deadline) (hrange h.borrower) (hrange h.lender) h.ne
    (fun i hb hl => by simp [h.vaults, hb, hl])
  simpa [State.totalDeadline, h.count, h.vaults, h.borrower, h.lender, h.ne, Vault.deadline,
    Vault.withLastCheckIn] using hsum

/-- A borrow keeps the sum of all deadlines exactly if it is exact. -/
theorem Borrowed.total_eq_iff (h : Borrowed e b l x vb vl s t) (hs : s.Numbered) :
    t.totalDeadline = s.totalDeadline ↔ ExactBorrow vb vl x := by
  have htotal := h.total hs
  have hpositive := h.positive
  simp only [Vault.deadline, saturatingAdd64, ExactBorrow] at htotal ⊢
  generalize u64Max = top at htotal ⊢
  omega

/-- Giving the time back restores both deadlines exactly if the borrower's did not move. -/
theorem Borrowed.restored_iff {u : State} {r : TtlBorrowRecord} {wl : Vault}
    (h : Borrowed e b l x vb vl s t) (h' : Repaid b r wl t u) :
    ((u.vault b).map Vault.deadline = some vb.deadline ∧
      (u.vault l).map Vault.deadline = some vl.deadline) ↔
        vb.lastCheckIn = u64Max ∧ x ≤ vl.lastCheckIn := by
  obtain rfl : ⟨b, l, x, e.timestamp, false⟩ = r := by
    simpa [h.records] using h'.record
  obtain rfl : vl.withLastCheckIn (vl.lastCheckIn - x) = wl := by
    simpa [h.vaults] using h'.lender
  have hdeadline := h.deadline
  have hremaining := h.remaining
  have hpositive := h.positive
  simp only [h'.vaults, h.vaults, h.ne, if_true, if_false, Option.map_some, Option.some.injEq,
    Vault.deadline, Vault.withLastCheckIn, saturatingAdd64] at hdeadline hremaining ⊢
  generalize u64Max = top at hdeadline ⊢
  omega

/-! ## The record of a borrow -/

/-- At most one borrow of each vault is open, and it is the one on record. -/
def OnRecord (ks : List Event) (s : State) : Prop :=
  ∀ b, outstanding b ks = [] ∨
    ∃ r, outstanding b ks = [r] ∧ r.repaid = false ∧ s.get (.ttlBorrow b) = some r

theorem onRecord_borrow {ks : List Event} (h : Borrowed e b l x vb vl s t) (hI : OnRecord ks s)
    (honce : ∀ r, s.get (.ttlBorrow b) = some r → r.repaid = true) :
    OnRecord (.call e (.checkIn (.borrowTtl b l caller x)) :: ks) t := by
  intro i
  by_cases hi : b = i
  · subst hi
    obtain hnone | ⟨r, -, hunpaid, hrecord⟩ := hI b
    · exact .inr ⟨⟨b, l, x, e.timestamp, false⟩, by simp [outstanding, hnone], rfl,
        by simp [h.records]⟩
    · simp [honce r hrecord] at hunpaid
  · have hkept : t.get (.ttlBorrow i) = s.get (.ttlBorrow i) := by simp [h.records, Ne.symm hi]
    simpa [outstanding, hi, hkept] using hI i

theorem onRecord_repay {ks : List Event} {r : TtlBorrowRecord} (h : Repaid b r vl s t)
    (hI : OnRecord ks s) : OnRecord (.call e (.checkIn (.repayTtlBorrow b caller)) :: ks) t := by
  intro i
  by_cases hi : b = i
  · subst hi
    left
    obtain hnone | ⟨r', hone, -⟩ := hI b
    · simp [outstanding, hnone]
    · simp [outstanding, hone]
  · have hkept : t.get (.ttlBorrow i) = s.get (.ttlBorrow i) := by simp [h.records, Ne.symm hi]
    simpa [outstanding, hi, hkept] using hI i

/-- A step of a run in which nobody borrows twice. -/
theorem onRecord_step {w w' : World} {ks : List Event} {k : Event} (hI : OnRecord ks w.state)
    (hstep : Guarded Step (OnCalls BorrowsOnce) w k w') : OnRecord (k :: ks) w'.state := by
  obtain ⟨hstep, hguard⟩ := hstep
  cases hstep with
  | @call _ c _ _ hexec =>
      cases c with
      | checkIn o =>
          cases o with
          | borrowTtl b l a x =>
              obtain ⟨_, _, h⟩ := borrowTtl_spec _ _ hexec
              exact onRecord_borrow h hI hguard
          | repayTtlBorrow b a =>
              obtain ⟨_, _, h⟩ := repayTtlBorrow_spec _ _ hexec
              exact onRecord_repay h hI
          | _ => exact hguard.elim
      | _ => exact hguard.elim
  | tokens _ _ => exact hI

end Borrowing

/-- In every sequence of borrows and repayments from a reachable state in which no vault
borrows before it has given back, every open borrow is on record; wherever it ends, a
borrow keeps the sum of all deadlines exactly if it is exact, and giving it back
restores both deadlines exactly if the borrower's did not move. -/
theorem ttl_borrowing {w₀ w : World} {ks : List Event} (h₀ : Reachable w₀)
    (hrun : Run (Guarded Step (OnCalls BorrowsOnce)) w₀ ks w) :
    (∀ b r, r ∈ outstanding b ks → w.state.get (.ttlBorrow b) = some r) ∧
    ∀ e b l a x w' vb vl, Step w (.call e (.checkIn (.borrowTtl b l a x))) w' →
      w.state.vault b = some vb → w.state.vault l = some vl →
        (w'.state.totalDeadline = w.state.totalDeadline ↔ ExactBorrow vb vl x) ∧
        ∀ e' a' w'', Step w' (.call e' (.checkIn (.repayTtlBorrow b a'))) w'' →
          (((w''.state.vault b).map Vault.deadline = some vb.deadline ∧
            (w''.state.vault l).map Vault.deadline = some vl.deadline) ↔
              vb.lastCheckIn = u64Max ∧ x ≤ vl.lastCheckIn) := by
  have hnum : w.state.Numbered :=
    hrun.unguard.invariant h₀.numbered fun _ _ _ hw hstep => hstep.numbered hw
  refine ⟨fun b r hr => ?_, fun e b l a x w' vb vl hstep hvb hvl => ?_⟩
  · have hrecord : OnRecord ks w.state :=
      hrun.invariantHistory (I := fun ks w => OnRecord ks w.state) (fun _ => .inl rfl)
        fun _ _ _ _ hI hstep => onRecord_step hI hstep
    obtain hnone | ⟨r', hone, -, hget⟩ := hrecord b
    · simp [hnone] at hr
    · obtain rfl : r = r' := by simpa [hone] using hr
      exact hget
  · cases hstep with
    | call _ hexec =>
        obtain ⟨vb', vl', h⟩ := borrowTtl_spec _ _ hexec
        obtain rfl := Option.some.inj (hvb.symm.trans h.borrower)
        obtain rfl := Option.some.inj (hvl.symm.trans h.lender)
        refine ⟨h.total_eq_iff hnum, fun e' a' w'' hrepay => ?_⟩
        cases hrepay with
        | call _ hexec' =>
            obtain ⟨_, _, h'⟩ := repayTtlBorrow_spec _ _ hexec'
            exact h.restored_iff h'

/-- Vault 2 lends vault 1 fifty seconds. -/
theorem ttl_borrowing_once : ∃ w w' : World, Reachable w ∧
    Step w (.call (signedBy [⟨1⟩] 100) (.checkIn (.borrowTtl 1 2 ⟨1⟩ 50))) w' ∧
      w'.state.get (.ttlBorrow 1) = some ⟨1, 2, 50, 100, false⟩ := by
  have hplay : (play (initialised ⟨8⟩ ⟨9⟩)
      [(signedBy [⟨1⟩] 100, .vault (.createVault ⟨1⟩ ⟨3⟩ 1000 none)),
        (signedBy [⟨2⟩] 100, .vault (.createVault ⟨2⟩ ⟨3⟩ 1000 none))]).any
      (fun w => w.state.get (.ttlBorrow 1) = none ∧
        (play w [(signedBy [⟨1⟩] 100, .checkIn (.borrowTtl 1 2 ⟨1⟩ 50))]).isSome) = true := by
    decide +kernel
  obtain ⟨w, hw, hchecks⟩ := (Option.any_eq_true _ _).mp hplay
  simp only [decide_eq_true_eq] at hchecks
  obtain ⟨w', hw'⟩ := Option.isSome_iff_exists.mp hchecks.2
  have hguard : Guarded Step (OnCalls BorrowsOnce) w
      (.call (signedBy [⟨1⟩] 100) (.checkIn (.borrowTtl 1 2 ⟨1⟩ 50))) w' :=
    guarded_step_of_play (by simp [BorrowsOnce, hchecks.1]) hw'
  refine ⟨w, w', reachable_of_play hw, step_of_play hw', ?_⟩
  exact (ttl_borrowing (reachable_of_play hw) (.next .start hguard)).1 1 _ (by decide)

/-- The borrower keeps the time that it has given back. -/
theorem repaid_time_is_kept : ¬ ∀ (w w' w'' : World) (e e' : Env) (b l x : Nat) (a a' : Address),
    Reachable w → Step w (.call e (.checkIn (.borrowTtl b l a x))) w' →
      Step w' (.call e' (.checkIn (.repayTtlBorrow b a'))) w'' →
        (w''.state.vault b).map Vault.deadline = (w.state.vault b).map Vault.deadline ∧
        (w''.state.vault l).map Vault.deadline = (w.state.vault l).map Vault.deadline := by
  have hplay : (play (initialised ⟨8⟩ ⟨9⟩)
      [(signedBy [⟨1⟩] 100, .vault (.createVault ⟨1⟩ ⟨3⟩ 1000 none)),
        (signedBy [⟨2⟩] 100, .vault (.createVault ⟨2⟩ ⟨3⟩ 1000 none))]).any
      (fun w => (w.state.vault 1).map Vault.deadline = some 1100 ∧
        (play w [(signedBy [⟨1⟩] 100, .checkIn (.borrowTtl 1 2 ⟨1⟩ 50))]).any fun w' =>
          (play w' [(signedBy [⟨1⟩] 100, .checkIn (.repayTtlBorrow 1 ⟨1⟩))]).any fun w'' =>
            (w''.state.vault 1).map Vault.deadline = some 1150) = true := by
    decide +kernel
  obtain ⟨w, hw, hchecks⟩ := (Option.any_eq_true _ _).mp hplay
  simp only [decide_eq_true_eq] at hchecks
  obtain ⟨w', hw', hafter⟩ := (Option.any_eq_true _ _).mp hchecks.2
  obtain ⟨w'', hw'', hkept⟩ := (Option.any_eq_true _ _).mp hafter
  intro h
  have hsame := (h w w' w'' _ _ 1 2 50 ⟨1⟩ ⟨1⟩ (reachable_of_play hw) (step_of_play hw')
    (step_of_play hw'')).1
  rw [hchecks.1] at hsame
  simp [hsame] at hkept

end Heirloom
