import Mathlib.Algebra.Order.Ring.Int
import Mathlib.Algebra.BigOperators.Group.List.Basic

/-!
# Token ledgers

What accounts hold of several tokens, together with the transfers made so far.
A transfer moves exactly its amount from one account to another; moving an
amount to oneself changes nothing (`holding_transfer`).
-/

namespace TokenLedger

variable {T A : Type} [DecidableEq T] [DecidableEq A]

/-- A transfer of `amount` units of `token`. -/
structure Transfer (T A : Type) where
  token : T
  source : A
  dest : A
  amount : Int
deriving DecidableEq

/-- Holdings of every account, and the transfers so far, oldest first. -/
structure Ledger (T A : Type) where
  holding : T → A → Int
  log : List (Transfer T A)

namespace Transfer

/-- What the transfer adds to the holding of `a` in `t`, counted negative for the sender. -/
def net (x : Transfer T A) (t : T) (a : A) : Int :=
  if x.token = t then
    (if x.dest = a then x.amount else 0) - (if x.source = a then x.amount else 0)
  else 0

variable {x : Transfer T A} {t : T} {a : A}

theorem net_of_token_ne (h : x.token ≠ t) : x.net t a = 0 := by
  simp [net, h]

/-- What the transfer brings to `a` from others, less what `a` gives away by it. A
transfer of `a` to itself counts as given away. -/
def flow (x : Transfer T A) (a : A) : Int :=
  (if x.dest = a ∧ x.source ≠ a then x.amount else 0) - (if x.source = a then x.amount else 0)

theorem flow_le_net (h : 0 ≤ x.amount) : x.flow a ≤ x.net x.token a := by
  unfold flow net
  by_cases hs : x.source = a <;> by_cases hd : x.dest = a <;> simp [hs, hd]
  omega

end Transfer

namespace Ledger

/-- Carries out a transfer and writes it to the log. -/
def transfer (l : Ledger T A) (x : Transfer T A) : Ledger T A where
  holding t a := l.holding t a + x.net t a
  log := l.log ++ [x]

variable {l : Ledger T A} {x : Transfer T A} {t : T} {a : A}

@[simp] theorem holding_transfer : (l.transfer x).holding t a = l.holding t a + x.net t a := rfl

@[simp] theorem log_transfer : (l.transfer x).log = l.log ++ [x] := rfl

/-- What a list of transfers brings to `a`, less what `a` gives away by it. -/
def flow (xs : List (Transfer T A)) (a : A) : Int := (xs.map (·.flow a)).sum

/-- Carries out a list of transfers in order. -/
def transferAll (l : Ledger T A) (xs : List (Transfer T A)) : Ledger T A := xs.foldl transfer l

variable {xs ys : List (Transfer T A)}

omit [DecidableEq T] in
@[simp] theorem flow_nil : flow ([] : List (Transfer T A)) a = 0 := rfl

omit [DecidableEq T] in
@[simp] theorem flow_cons : flow (x :: xs) a = x.flow a + flow xs a := by
  simp [flow]

omit [DecidableEq T] in
@[simp] theorem flow_append : flow (xs ++ ys) a = flow xs a + flow ys a := by
  simp [flow]

@[simp] theorem transferAll_nil : l.transferAll [] = l := rfl

@[simp] theorem transferAll_cons : l.transferAll (x :: xs) = (l.transfer x).transferAll xs := rfl

theorem transferAll_append : l.transferAll (xs ++ ys) = (l.transferAll xs).transferAll ys :=
  List.foldl_append

theorem log_transferAll : (l.transferAll xs).log = l.log ++ xs := by
  induction xs generalizing l with
  | nil => simp
  | cons x xs ih => exact (ih (l := l.transfer x)).trans (by simp)

/-- The holding of `a` grows by at least the flow of transfers of the token. -/
theorem flow_le_holding (h : ∀ x ∈ xs, x.token = t ∧ 0 ≤ x.amount) :
    l.holding t a + flow xs a ≤ (l.transferAll xs).holding t a := by
  induction xs generalizing l with
  | nil => simp
  | cons x xs ih =>
      obtain ⟨⟨rfl, hx⟩, hxs⟩ := List.forall_mem_cons.mp h
      have hrest := ih (l := l.transfer x) hxs
      have hone : x.flow a ≤ x.net x.token a := Transfer.flow_le_net hx
      simp only [transferAll_cons, flow_cons, holding_transfer] at *
      omega

/-- Transfers of another token do not matter. -/
theorem holding_of_token_ne {t' : T} (h : ∀ x ∈ xs, x.token = t) (ht : t ≠ t') :
    (l.transferAll xs).holding t' a = l.holding t' a := by
  induction xs generalizing l with
  | nil => simp
  | cons x xs ih =>
      obtain ⟨hx, hxs⟩ := List.forall_mem_cons.mp h
      rw [transferAll_cons, ih hxs, holding_transfer, Transfer.net_of_token_ne (hx ▸ ht), add_zero]

end Ledger

end TokenLedger
