import Heirloom.System
import Mathlib.Data.Nat.Bitwise

/-!
# Countdown notifications

Anybody may call `check_countdown`, which publishes a notice for each threshold of a list that the
remaining time of a vault has reached, and remembers the notices of a cycle in a `u32`, one bit for
each position of the list. The two keys of the storage that this takes are used by no other
function, apart from `check_in`, which removes the bits; they are kept here beside the state of
the contract.

* `ok_checkCountdown`: when a check returns, and what it publishes.
* `lastCheckIn_kept`: a call that neither starts a cycle nor shifts the last check-in leaves it.
* `flags_of_run`: in every run, the bits that are set are those of the notices of the cycle and of
  the stale notices, which a check-in of another kind has left behind.
* `countdown_fires_iff`: a check of a run publishes what it should if and only if the list is
  short enough and no threshold that is reached has a stale notice.
-/

namespace Heirloom

open Transaction Runs

/-! ## The functions -/

/-- The state of the contract with the configured thresholds and the fired flags of each vault. -/
structure CountdownState where
  contract : State
  config : Nat → Option (List Nat)
  fired : Nat → Option Nat

abbrev CountdownTx := Tx Env CountdownState Failure

/-- What is published for a threshold, with its position in the list. -/
structure Notice where
  position : Nat
  threshold : Nat
  ttl : Nat
deriving DecidableEq

/-- The fired flags and the notices, while a check goes through the list. -/
structure Firing where
  fired : Nat
  notices : List Notice

/-- Runs a part of the contract that does not look at the countdown. -/
def onContract {α : Type} (m : Contract α) : CountdownTx α := fun e s =>
  match m e s.contract with
  | .ok (a, t) => .ok (a, { s with contract := t })
  | .error err => .error err

def setCountdownConfig (vaultId : Nat) (caller : Address) (thresholds : List Nat) :
    CountdownTx Unit := do
  onContract (requireAuth caller)
  let vault ← onContract (loadVault vaultId)
  onContract (require (caller = vault.owner) .notOwner)
  update fun s =>
    { s with
      config := Function.update s.config vaultId (some thresholds)
      fired := Function.update s.fired vaultId none }

/-- The thresholds of a vault: seven days, three days and one day if none are configured. -/
def CountdownState.thresholds (s : CountdownState) (vaultId : Nat) : List Nat :=
  (s.config vaultId).getD [604800, 259200, 86400]

/-- The bit of a position; a `u32` cannot be shifted by more than 31. -/
def countdownBit (i : Nat) : Contract Nat := do
  ensure (i < 32) .overflow
  return 1 <<< i

def Firing.next (ttl : Nat) (firing : Firing) (threshold i : Nat) : Firing :=
  if firing.fired &&& 1 <<< i = 0 ∧ ttl ≤ threshold then
    ⟨firing.fired ||| 1 <<< i, firing.notices ++ [⟨i, threshold, ttl⟩]⟩
  else firing

/-- The loop of a check over the thresholds. -/
def fireThresholds (ttl : Nat) (thresholds : List Nat) (fired : Nat) : CountdownTx Firing :=
  foldEach thresholds.zipIdx ⟨fired, []⟩ fun firing entry => do
    let _ ← onContract (countdownBit entry.2)
    return firing.next ttl entry.1 entry.2

def checkCountdown (vaultId : Nat) : CountdownTx (Nat × List Notice) := do
  let vault ← onContract (loadVault vaultId)
  if vault.status ≠ .locked then return (0, [])
  else do
    let ttl := (← onContract (getTtlRemaining vaultId)).getD 0
    let thresholds ← read (·.thresholds vaultId)
    let fired := (← read (·.fired vaultId)).getD 0
    let firing ← fireThresholds ttl thresholds fired
    onlyIf (firing.notices ≠ []) (update fun s =>
      { s with fired := Function.update s.fired vaultId (some firing.fired) })
    return (ttl, firing.notices)

/-! ## Runs -/

inductive CountdownCall
  /-- A call that does not look at the countdown. -/
  | contract (c : Call)
  | setCountdownConfig (vaultId : Nat) (caller : Address) (thresholds : List Nat)
  | checkCountdown (vaultId : Nat)

/-- The call is a `check_in` of the vault: it clears the flags. -/
def Call.clears (id : Nat) : Call → Bool
  | .checkIn (.checkIn i _ _ _) | .checkIn (.checkInWithGeo i _ _) => decide (i = id)
  | _ => false

/-- The call starts a new cycle of the vault: it sets the time of the last check-in to now. An
execution does so if the proposal is about the interval. -/
def Call.restarts (s : State) (id : Nat) : Call → Bool
  | .checkIn (.checkIn i _ _ _) | .checkIn (.checkInWithGeo i _ _)
  | .checkIn (.checkInWithPow i _ _ _ _) | .checkIn (.biometricCheckIn i _ _ _)
  | .checkIn (.updateCheckInInterval i _) | .checkIn (.requestRecoveryExtension i _)
  | .passkey (.useBackupCode i _) | .passkey (.recoverWithCode i _ _) => decide (i = id)
  | .checkIn (.batchCheckIn is _) | .checkIn (.batchCheckInV2 is _ _)
  | .checkIn (.syncVaultTtls is _) => decide (id ∈ is)
  | .multisig (.executeMultisig i pid _) => decide (i = id) &&
      (s.get (.multiSigProposal i pid)).any fun p => decide (p.operation = .updateCheckInInterval)
  | _ => false

/-- The call moves the time of the last check-in by an amount, within the cycle. -/
def Call.shifts (s : State) (id : Nat) : Call → Bool
  | .checkIn (.applyTtlDecay i) | .checkIn (.accelerateTtlDecay i _ _)
  | .checkIn (.exitHibernation i _) => decide (i = id)
  | .checkIn (.borrowTtl b l _ _) => decide (id = b ∨ id = l)
  | .checkIn (.repayTtlBorrow b _) => decide (id ∈ b :: s.lenderOf b)
  | _ => false

/-- Runs a call; the result are the notices that it publishes. -/
def execCountdown : CountdownCall → CountdownTx (List Notice)
  | .contract c => do
      onContract (exec c)
      update fun s => { s with fired := fun id => if c.clears id = true then none else s.fired id }
      return []
  | .setCountdownConfig vaultId caller thresholds => do
      setCountdownConfig vaultId caller thresholds
      return []
  | .checkCountdown vaultId => do
      return (← checkCountdown vaultId).2

structure CountdownWorld where
  state : CountdownState
  clock : Nat

/-- A call, made in the state `s` of the contract, with the notices that it has published, or a
movement of tokens. -/
inductive CountdownEvent
  | call (s : State) (c : CountdownCall) (notices : List Notice)
  | tokens

inductive CountdownStep : CountdownWorld → CountdownEvent → CountdownWorld → Prop
  | call {w : CountdownWorld} {e : Env} {c : CountdownCall} {notices : List Notice}
      {t : CountdownState} :
      w.clock ≤ e.timestamp → execCountdown c e w.state = .ok (notices, t) →
      CountdownStep w (.call w.state.contract c notices) ⟨t, e.timestamp⟩
  | tokens {w : CountdownWorld} {u : World} :
      Step ⟨w.state.contract, w.clock⟩ .tokens u →
      CountdownStep w .tokens ⟨{ w.state with contract := u.state }, w.clock⟩

/-- The initialised contract, with no countdown. -/
def CountdownGenesis (w : CountdownWorld) : Prop :=
  Genesis ⟨w.state.contract, w.clock⟩ ∧ ∀ id, w.state.config id = none ∧ w.state.fired id = none

/-- The positions of the notices of the present cycle. -/
def firedInCycle (id : Nat) : List CountdownEvent → List Nat
  | [] => []
  | .call s (.contract c) _ :: ks => if c.restarts s id = true then [] else firedInCycle id ks
  | .call _ (.setCountdownConfig i _ _) _ :: ks => if i = id then [] else firedInCycle id ks
  | .call _ (.checkCountdown i) notices :: ks =>
      if i = id then notices.map (·.position) ++ firedInCycle id ks else firedInCycle id ks
  | .tokens :: ks => firedInCycle id ks

/-- The positions of the notices of earlier cycles that no `check_in` has cleared. -/
def staleFlags (id : Nat) : List CountdownEvent → List Nat
  | [] => []
  | .call s (.contract c) _ :: ks =>
      if c.clears id = true then []
      else if c.restarts s id = true then firedInCycle id ks ++ staleFlags id ks
      else staleFlags id ks
  | .call _ (.setCountdownConfig i _ _) _ :: ks => if i = id then [] else staleFlags id ks
  | .call _ (.checkCountdown _) _ :: ks | .tokens :: ks => staleFlags id ks

/-! ## One check -/

/-- The notices of the thresholds that are reached and whose flag is not set. -/
def dueNotices (ttl fired : Nat) (entries : List (Nat × Nat)) : List Notice :=
  (entries.filter fun x => !fired.testBit x.2 && decide (ttl ≤ x.1)).map fun x => ⟨x.2, x.1, ttl⟩

section Checks

variable {e : Env} {s t : CountdownState} {id ttl i j fired : Nat} {v : Vault} {α : Type}
  {m : Contract α} {a : α}

@[simp] theorem and_bit_eq_zero : fired &&& 1 <<< i = 0 ↔ fired.testBit i = false := by
  rw [Nat.one_shiftLeft, Nat.and_two_pow]
  cases fired.testBit i <;> simp

@[simp] theorem testBit_or_bit :
    (fired ||| 1 <<< i).testBit j = true ↔ fired.testBit j = true ∨ j = i := by
  rw [Nat.one_shiftLeft, Nat.testBit_or, Nat.testBit_two_pow, Bool.or_eq_true, decide_eq_true_eq,
    @eq_comm _ j i]

theorem mem_dueNotices {entries : List (Nat × Nat)} {n : Notice} : n ∈ dueNotices ttl fired entries ↔
    (n.threshold, n.position) ∈ entries ∧ fired.testBit n.position = false ∧
      ttl ≤ n.threshold ∧ n.ttl = ttl := by
  obtain ⟨position, threshold, noticed⟩ := n
  simp only [dueNotices, List.mem_map, List.mem_filter, Bool.and_eq_true, Bool.not_eq_true',
    decide_eq_true_eq, Notice.mk.injEq]
  constructor
  · rintro ⟨⟨_, _⟩, ⟨hmem, hclear, hle⟩, rfl, rfl, rfl⟩
    exact ⟨hmem, hclear, hle, rfl⟩
  · rintro ⟨hmem, hclear, hle, rfl⟩
    exact ⟨(threshold, position), ⟨hmem, hclear, hle⟩, rfl, rfl, rfl⟩

theorem mem_duePositions {l : List Nat} : i ∈ (dueNotices ttl fired l.zipIdx).map (·.position) ↔
    fired.testBit i = false ∧ ∃ threshold, l[i]? = some threshold ∧ ttl ≤ threshold := by
  constructor
  · intro h
    obtain ⟨n, hn, rfl⟩ := List.mem_map.mp h
    obtain ⟨hmem, hclear, hle, -⟩ := mem_dueNotices.mp hn
    exact ⟨hclear, n.threshold, List.mk_mem_zipIdx_iff_getElem?.mp hmem, hle⟩
  · rintro ⟨hclear, threshold, hi, hle⟩
    exact List.mem_map.mpr ⟨⟨i, threshold, ttl⟩,
      mem_dueNotices.mpr ⟨List.mk_mem_zipIdx_iff_getElem?.mpr hi, hclear, hle, rfl⟩, rfl⟩

/-- A flag of another position does not matter. -/
theorem dueNotices_or {entries : List (Nat × Nat)} (h : i ∉ entries.map Prod.snd) :
    dueNotices ttl (fired ||| 1 <<< i) entries = dueNotices ttl fired entries := by
  have hsame : ∀ x ∈ entries, (fired ||| 1 <<< i).testBit x.2 = fired.testBit x.2 := by
    intro x hx
    have hne : x.2 ≠ i := fun heq => h (heq ▸ List.mem_map_of_mem hx)
    rw [Bool.eq_iff_iff, testBit_or_bit, or_iff_left hne]
  rw [dueNotices, dueNotices, List.filter_congr fun x hx => by rw [hsame x hx]]

theorem dueNotices_cons {x : Nat × Nat} {entries : List (Nat × Nat)} :
    dueNotices ttl fired (x :: entries) =
      if fired.testBit x.2 = false ∧ ttl ≤ x.1 then
        ⟨x.2, x.1, ttl⟩ :: dueNotices ttl fired entries
      else dueNotices ttl fired entries := by
  simp only [dueNotices, List.filter_cons, Bool.and_eq_true, Bool.not_eq_true', decide_eq_true_eq]
  split <;> rfl

/-- What the loop has published and flagged. -/
theorem foldl_next {entries : List (Nat × Nat)} {firing : Firing}
    (hnodup : (entries.map Prod.snd).Nodup) :
    (entries.foldl (fun firing x => firing.next ttl x.1 x.2) firing).notices =
        firing.notices ++ dueNotices ttl firing.fired entries ∧
      ∀ j, (entries.foldl (fun firing x => firing.next ttl x.1 x.2) firing).fired.testBit j = true ↔
        firing.fired.testBit j = true ∨
          j ∈ (dueNotices ttl firing.fired entries).map (·.position) := by
  induction entries generalizing firing with
  | nil => simp [dueNotices]
  | cons x xs ih =>
      obtain ⟨hx, hxs⟩ := List.nodup_cons.mp hnodup
      rw [List.foldl_cons, dueNotices_cons]
      split
      case isTrue hdue =>
        have hnext : firing.next ttl x.1 x.2 = ⟨firing.fired ||| 1 <<< x.2,
            firing.notices ++ [⟨x.2, x.1, ttl⟩]⟩ :=
          if_pos ⟨and_bit_eq_zero.mpr hdue.1, hdue.2⟩
        obtain ⟨hnotices, hflags⟩ := @ih (firing.next ttl x.1 x.2) hxs
        rw [hnext, dueNotices_or hx] at hnotices hflags
        rw [hnext]
        refine ⟨by rw [hnotices, List.append_assoc]; rfl, fun j => ?_⟩
        rw [hflags j, testBit_or_bit, List.map_cons, List.mem_cons, or_assoc]
      case isFalse hdue =>
        have hnext : firing.next ttl x.1 x.2 = firing :=
          if_neg fun h => hdue ⟨and_bit_eq_zero.mp h.1, h.2⟩
        rw [hnext]
        exact ih hxs

theorem nodup_zipIdx {l : List Nat} : (l.zipIdx.map Prod.snd).Nodup := by
  rw [List.zipIdx_map_snd]
  exact List.nodup_range'

theorem nodup_positions {entries : List (Nat × Nat)} (hnodup : (entries.map Prod.snd).Nodup) :
    ((dueNotices ttl fired entries).map (·.position)).Nodup := by
  have hsub : List.Sublist ((dueNotices ttl fired entries).map (·.position))
      (entries.map Prod.snd) := by
    rw [dueNotices, List.map_map]
    exact (List.filter_sublist).map _
  exact hsub.nodup hnodup

@[simp] theorem ok_onContract :
    onContract m e s = .ok (a, t) ↔ ∃ u, m e s.contract = .ok (a, u) ∧ { s with contract := u } = t := by
  unfold onContract
  cases m e s.contract with
  | error err => simp
  | ok r =>
      obtain ⟨b, u⟩ := r
      simp

/-- The flags that are set. -/
def CountdownState.flags (s : CountdownState) (id : Nat) : Nat := (s.fired id).getD 0

/-- A check of the vault at `now` flags what it publishes, and changes nothing else. -/
structure Flagged (id : Nat) (notices : List Notice) (s t : CountdownState) : Prop where
  contract : t.contract = s.contract
  config : t.config = s.config
  other : ∀ i, i ≠ id → t.fired i = s.fired i
  flags : ∀ j, (t.flags id).testBit j = true ↔
    (s.flags id).testBit j = true ∨ j ∈ notices.map (·.position)

theorem forall_zipIdx_lt {n : Nat} {l : List Nat} : (∀ x ∈ l.zipIdx, x.2 < n) ↔ l.length ≤ n := by
  constructor
  · intro h
    rcases Nat.eq_zero_or_pos l.length with hnil | hpos
    · rw [hnil]
      exact Nat.zero_le n
    · have hlast := h (l[l.length - 1], l.length - 1)
        (List.mk_mem_zipIdx_iff_getElem?.mpr (List.getElem?_eq_getElem _))
      exact Nat.le_of_pred_lt hlast
  · rintro h ⟨x, i⟩ hx
    exact (List.getElem?_eq_some_iff.mp (List.mk_mem_zipIdx_iff_getElem?.mp hx)).1.trans_le h

theorem ok_remaining {u : State} {o : Option Nat} (hv : s.contract.vault id = some v) :
    getTtlRemaining id e s.contract = .ok (o, u) ↔ v.deadline ≤ u64Max ∧
      o = (if v.deadline ≤ e.timestamp then none else some (v.deadline - e.timestamp)) ∧
        s.contract = u := by
  simp only [getTtlRemaining, Tx.ok_bind, ok_tryLoadVault, Tx.ok_ifSomeElse, ok_u64, ok_timestamp,
    Tx.ok_pure, Vault.deadline]
  constructor
  · rintro ⟨_, _, ⟨rfl, rfl⟩, ⟨v', hv', _, _, ⟨hle, rfl, rfl⟩, _, _, ⟨rfl, rfl⟩, rfl, rfl⟩ | hnone⟩
    · obtain rfl := Option.some.inj (hv.symm.trans hv')
      exact ⟨hle, rfl, rfl⟩
    · cases hv.symm.trans hnone.1
  · rintro ⟨hle, rfl, rfl⟩
    exact ⟨_, _, ⟨rfl, rfl⟩, .inl ⟨v, hv, _, _, ⟨hle, rfl, rfl⟩, _, _, ⟨rfl, rfl⟩, rfl, rfl⟩⟩

theorem remaining_getD : (if v.deadline ≤ e.timestamp then none
    else some (v.deadline - e.timestamp) : Option Nat).getD 0 = v.deadline - e.timestamp := by
  split
  case isTrue h => exact (Nat.sub_eq_zero_of_le h).symm
  case isFalse => rfl

/-- What the loop computes, for a list of any length. -/
def firingOf (ttl : Nat) (thresholds : List Nat) (flags : Nat) : Firing :=
  thresholds.zipIdx.foldl (fun firing x => firing.next ttl x.1 x.2) ⟨flags, []⟩

theorem ok_fireThresholds {l : List Nat} {flags : Nat} {firing : Firing} :
    fireThresholds ttl l flags e s = .ok (firing, t) ↔
      l.length ≤ 32 ∧ firing = firingOf ttl l flags ∧ s = t := by
  rw [fireThresholds, Tx.ok_foldEach_foldl (C := fun x => x.2 < 32)
    (g := fun firing x => firing.next ttl x.1 x.2), forall_zipIdx_lt, firingOf]
  intro firing x firing' t
  simp only [Tx.ok_bind, ok_onContract, countdownBit, Tx.ok_ensure, Tx.ok_pure]
  constructor
  · rintro ⟨_, _, ⟨_, ⟨_, _, ⟨hi, rfl⟩, _, rfl⟩, rfl⟩, rfl, rfl⟩
    exact ⟨hi, rfl, rfl⟩
  · rintro ⟨hi, rfl, rfl⟩
    exact ⟨_, _, ⟨_, ⟨(), _, ⟨hi, rfl⟩, rfl, rfl⟩, rfl⟩, rfl, rfl⟩

/-- The state after a check that has published `notices`. -/
def CountdownState.flagged (s : CountdownState) (id fired : Nat) (notices : List Notice) :
    CountdownState :=
  if notices = [] then s else { s with fired := Function.update s.fired id (some fired) }

/-- A check of a locked vault: when it returns, with what and in which state. -/
theorem ok_checkCountdown {r : Nat × List Notice} (hv : s.contract.vault id = some v)
    (hlocked : v.status = .locked) : checkCountdown id e s = .ok (r, t) ↔
      ∃ firing, firing = firingOf (v.deadline - e.timestamp) (s.thresholds id) (s.flags id) ∧
        v.deadline ≤ u64Max ∧ (s.thresholds id).length ≤ 32 ∧
        r = (v.deadline - e.timestamp, firing.notices) ∧
        t = s.flagged id firing.fired firing.notices := by
  simp only [checkCountdown, Tx.ok_bind, ok_onContract, ok_loadVault, Tx.ok_ite, Tx.ok_read,
    ok_fireThresholds, Tx.ok_onlyIf, Tx.ok_update, Tx.ok_pure]
  constructor
  · rintro ⟨v', _, ⟨_, ⟨hv', rfl⟩, rfl⟩, ⟨hother, -⟩ | ⟨-, o, _, ⟨u, ho, rfl⟩, hrest⟩⟩
    · obtain rfl := Option.some.inj (hv.symm.trans hv')
      exact absurd hlocked hother
    · obtain rfl := Option.some.inj (hv.symm.trans hv')
      obtain ⟨hle, rfl, rfl⟩ := (ok_remaining hv).mp ho
      rw [remaining_getD] at hrest
      obtain ⟨_, _, ⟨rfl, rfl⟩, _, _, ⟨rfl, rfl⟩, _, _, ⟨hlen, rfl, rfl⟩, hrest⟩ := hrest
      refine ⟨_, rfl, hle, hlen, ?_⟩
      obtain ⟨_, _, ⟨hne, rfl⟩ | ⟨hnil, rfl⟩, rfl, rfl⟩ := hrest
      · exact ⟨rfl, (if_neg hne).symm⟩
      · exact ⟨rfl, (if_pos (not_not.mp hnil)).symm⟩
  · rintro ⟨_, rfl, hle, hlen, rfl, rfl⟩
    refine ⟨v, s, ⟨_, ⟨hv, rfl⟩, rfl⟩, .inr ⟨not_not.mpr hlocked, _, s,
      ⟨_, (ok_remaining hv).mpr ⟨hle, rfl, rfl⟩, rfl⟩, ?_⟩⟩
    rw [remaining_getD]
    refine ⟨_, s, ⟨rfl, rfl⟩, _, s, ⟨rfl, rfl⟩, _, s, ⟨hlen, rfl, rfl⟩, (), _, ?_, rfl, rfl⟩
    unfold CountdownState.flagged
    split
    case isTrue hnil => exact .inr ⟨not_not.mpr hnil, rfl⟩
    case isFalse hne => exact .inl ⟨hne, rfl⟩

theorem firingOf_notices {l : List Nat} {flags : Nat} :
    (firingOf ttl l flags).notices = dueNotices ttl flags l.zipIdx := by
  rw [firingOf, (foldl_next nodup_zipIdx).1, List.nil_append]

theorem testBit_firingOf {l : List Nat} {flags : Nat} :
    (firingOf ttl l flags).fired.testBit j = true ↔
      flags.testBit j = true ∨ j ∈ (firingOf ttl l flags).notices.map (·.position) := by
  rw [firingOf_notices, firingOf, (foldl_next nodup_zipIdx).2]

theorem flags_flagged {fired : Nat} {notices : List Notice} :
    (s.flagged id fired notices).flags id = if notices = [] then s.flags id else fired := by
  unfold CountdownState.flagged
  split
  · rfl
  · show (Function.update s.fired id (some fired) id).getD 0 = fired
    rw [Function.update_self, Option.getD_some]

/-- A check publishes notices whose flags are clear, once, and sets their flags. -/
theorem checkCountdown_flagged {notices : List Notice}
    (h : checkCountdown id e s = .ok ((ttl, notices), t)) :
    Flagged id notices s t ∧ (notices.map (·.position)).Nodup ∧
      ∀ n ∈ notices, (s.flags id).testBit n.position = false := by
  obtain ⟨v, u, hload, hrest⟩ := Tx.ok_bind.mp h
  obtain ⟨_, hloaded, rfl⟩ := ok_onContract.mp hload
  obtain ⟨hv, rfl⟩ := ok_loadVault.mp hloaded
  by_cases hlocked : v.status = .locked
  · obtain ⟨firing, rfl, -, -, hr, rfl⟩ := (ok_checkCountdown hv hlocked).mp h
    obtain ⟨rfl, rfl⟩ := Prod.mk.inj hr
    refine ⟨⟨?_, ?_, fun i hi => ?_, fun j => ?_⟩, ?_, fun n hn => ?_⟩
    · unfold CountdownState.flagged
      split <;> rfl
    · unfold CountdownState.flagged
      split <;> rfl
    · unfold CountdownState.flagged
      split
      · rfl
      · exact Function.update_of_ne hi _ _
    · rw [flags_flagged]
      split
      case isTrue hnil => simp [hnil]
      case isFalse => exact testBit_firingOf
    · rw [firingOf_notices]
      exact nodup_positions nodup_zipIdx
    · rw [firingOf_notices] at hn
      exact (mem_dueNotices.mp hn).2.1
  · rw [if_pos hlocked, Tx.ok_pure] at hrest
    obtain ⟨hr, rfl⟩ := hrest
    obtain ⟨-, rfl⟩ := Prod.mk.inj hr
    exact ⟨⟨rfl, rfl, fun _ _ => rfl, by simp⟩, .nil, by simp⟩

end Checks

/-! ## Every run -/

section Runs

variable {e : Env} {id i : Nat} {c : Call} {w w₀ u : CountdownWorld} {k : CountdownEvent}
  {ks : List CountdownEvent} {v : Vault} {s t : CountdownState} {l : List Nat} {caller : Address}

theorem restarts_of_clears {s : State} (h : c.clears id = true) : c.restarts s id = true := by
  unfold Call.clears at h
  split at h <;> first | exact h | cases h

/-- A call that may write the time of the last check-in starts a cycle, shifts the time or is the
execution of a proposal. -/
theorem restarts_or_shifts {s : State} (hid : id ∈ (c.footprint s).vaults)
    (hpart : .deadline ∈ (c.footprint s).parts) :
    c.restarts s id = true ∨ c.shifts s id = true ∨
      ∃ pid caller, c = .multisig (.executeMultisig id pid caller) := by
  cases c with
  | checkIn o =>
      cases o <;> simp_all [Call.footprint, CheckInCall.footprint, Call.restarts, Call.shifts]
  | passkey o =>
      cases o <;> simp_all [Call.footprint, PasskeyCall.footprint, Call.restarts]
  | multisig o =>
      cases o <;> simp_all [Call.footprint, MultisigCall.footprint]
  | _ => exact absurd (Call.mem_parts hpart) (by simp [Call.parts])

/-- Only the calls that start a cycle or shift the last check-in write it. -/
theorem lastCheckIn_kept {s t : State} {v w : Vault} (hs : s.Numbered)
    (hexec : exec c e s = .ok ((), t)) (hv : s.vault id = some v) (hw : t.vault id = some w)
    (hrestarts : c.restarts s id = false) (hshifts : c.shifts s id = false) :
    w.lastCheckIn = v.lastCheckIn := by
  have hframe := exec_frame c hs _ _ hexec
  by_cases hid : id ∈ (c.footprint s).vaults
  swap
  · rw [hframe.vault_eq hid, hv] at hw
    rw [Option.some.inj hw]
  obtain ⟨w', hw', hagree⟩ := hframe.kept id v hv
  obtain rfl := Option.some.inj (hw.symm.trans hw')
  rcases hagree.deadline with hpart | hsame
  swap
  · exact hsame
  rcases restarts_or_shifts hid hpart with h | h | ⟨pid, caller, rfl⟩
  · rw [hrestarts] at h
    cases h
  · rw [hshifts] at h
    cases h
  · -- the proposal is about something else
    obtain ⟨v', p, hdone⟩ := executeMultisig_spec _ _ hexec
    obtain ⟨w', hw', hagree⟩ := hdone.frame.kept id v hv
    obtain rfl := Option.some.inj (hw.symm.trans hw')
    refine hagree.deadline.resolve_left fun hpart => ?_
    cases hop : p.operation <;>
      simp_all [MultiSigOperation.parts, Call.restarts, hdone.proposal]

/-- The flags are those of the notices of the cycle and of the stale ones. -/
structure FlagsKept (fired stale : List Nat) (flags : Nat) : Prop where
  flags_iff : ∀ j, flags.testBit j = true ↔ j ∈ fired ∨ j ∈ stale
  fresh : ∀ j ∈ fired, j ∉ stale
  once : fired.Nodup

theorem flagsKept_nil : FlagsKept [] [] 0 := ⟨by simp, by simp, .nil⟩

/-- A new cycle that keeps the flags makes them stale. -/
theorem FlagsKept.restart {fired stale : List Nat} {flags : Nat} (h : FlagsKept fired stale flags) :
    FlagsKept [] (fired ++ stale) flags :=
  ⟨fun j => by rw [h.flags_iff j]; simp, by simp, .nil⟩

/-- A check adds its notices to the cycle. -/
theorem FlagsKept.check {fired stale : List Nat} {ttl : Nat} {notices : List Notice}
    (h : FlagsKept fired stale (s.flags id))
    (hcheck : checkCountdown id e s = .ok ((ttl, notices), t)) :
    FlagsKept (notices.map (·.position) ++ fired) stale (t.flags id) := by
  obtain ⟨hflagged, hnodup, hclear⟩ := checkCountdown_flagged hcheck
  have hnew : ∀ j ∈ notices.map (·.position), j ∉ fired ∧ j ∉ stale := by
    intro j hj
    obtain ⟨n, hn, rfl⟩ := List.mem_map.mp hj
    have hunset := mt (h.flags_iff n.position).mpr (by simp [hclear n hn])
    exact not_or.mp hunset
  refine ⟨fun j => ?_, fun j hj => ?_, ?_⟩
  · rw [hflagged.flags, h.flags_iff, List.mem_append]
    tauto
  · rcases List.mem_append.mp hj with hj | hj
    · exact (hnew j hj).2
    · exact h.fresh j hj
  · exact List.nodup_append.mpr ⟨hnodup, h.once, fun j hj i hi heq => (hnew j hj).1 (heq ▸ hi)⟩

theorem flagsKept_step (h : FlagsKept (firedInCycle id ks) (staleFlags id ks) (w.state.flags id))
    (hstep : CountdownStep w k u) :
    FlagsKept (firedInCycle id (k :: ks)) (staleFlags id (k :: ks)) (u.state.flags id) := by
  cases hstep with
  | tokens _ => exact h
  | @call e c notices t hclock hexec =>
      cases c with
      | contract c =>
          simp only [execCountdown, Tx.ok_bind, ok_onContract, Tx.ok_update, Tx.ok_pure] at hexec
          obtain ⟨_, _, ⟨_, _, rfl⟩, _, _, rfl, rfl, rfl⟩ := hexec
          show FlagsKept _ _ ((if c.clears id = true then none else w.state.fired id).getD 0)
          unfold firedInCycle staleFlags
          by_cases hclears : c.clears id = true
          · rw [if_pos hclears, if_pos hclears, if_pos (restarts_of_clears hclears)]
            exact flagsKept_nil
          · rw [if_neg hclears, if_neg hclears]
            split
            · exact h.restart
            · exact h
      | setCountdownConfig i caller l =>
          simp only [execCountdown, setCountdownConfig, Tx.ok_bind, ok_onContract, ok_requireAuth,
            ok_loadVault, ok_require, Tx.ok_update, Tx.ok_pure] at hexec
          obtain ⟨_, _, ⟨_, _, ⟨_, _, ⟨_, rfl⟩, rfl⟩, _, _, ⟨_, ⟨_, rfl⟩, rfl⟩, _, _,
            ⟨_, ⟨_, rfl⟩, rfl⟩, rfl⟩, rfl, rfl⟩ := hexec
          show FlagsKept _ _ ((Function.update w.state.fired i none id).getD 0)
          unfold firedInCycle staleFlags
          by_cases hi : i = id
          · subst hi
            rw [if_pos rfl, if_pos rfl, Function.update_self]
            exact flagsKept_nil
          · rw [if_neg hi, if_neg hi, Function.update_of_ne (Ne.symm hi)]
            exact h
      | checkCountdown i =>
          obtain ⟨⟨ttl, l⟩, u, hcheck, hrest⟩ := Tx.ok_bind.mp hexec
          obtain ⟨rfl, rfl⟩ := Tx.ok_pure.mp hrest
          unfold firedInCycle staleFlags
          by_cases hi : i = id
          · subst hi
            rw [if_pos rfl]
            exact h.check hcheck
          · rw [if_neg hi]
            have hother := (checkCountdown_flagged hcheck).1.other id (Ne.symm hi)
            show FlagsKept _ _ ((u.fired id).getD 0)
            rw [hother]
            exact h

theorem flags_of_run (h₀ : CountdownGenesis w₀) (hrun : Run CountdownStep w₀ ks w) :
    FlagsKept (firedInCycle id ks) (staleFlags id ks) (w.state.flags id) := by
  refine hrun.invariantHistory (I := fun ks w => FlagsKept (firedInCycle id ks) (staleFlags id ks)
    (w.state.flags id)) ?_ fun ks w k u h hstep => flagsKept_step h hstep
  rw [CountdownState.flags, (h₀.2 id).2]
  exact flagsKept_nil

/-- What a check should do: it returns; it publishes only thresholds that are reached, and none
that the cycle has published; those that are reached have then been published. -/
def FiresOncePerCycle (id : Nat) (ks : List CountdownEvent) (e : Env) (s : CountdownState)
    (v : Vault) : Prop :=
  ∃ ttl notices t, checkCountdown id e s = .ok ((ttl, notices), t) ∧
    (notices.map (·.position) ++ firedInCycle id ks).Nodup ∧
    (∀ n ∈ notices, (s.thresholds id)[n.position]? = some n.threshold ∧
      v.deadline - e.timestamp ≤ n.threshold) ∧
    ∀ i threshold, (s.thresholds id)[i]? = some threshold → v.deadline - e.timestamp ≤ threshold →
      i ∈ notices.map (·.position) ++ firedInCycle id ks

/-- In every run, a check of a locked vault does what it should if and only if the deadline fits a
`u64`, the list has at most 32 thresholds, and no flag of an earlier cycle is left for one that
is reached. -/
theorem countdown_fires_iff (h₀ : CountdownGenesis w₀) (hrun : Run CountdownStep w₀ ks w)
    (hv : w.state.contract.vault id = some v) (hlocked : v.status = .locked) :
    FiresOncePerCycle id ks e w.state v ↔
      v.deadline ≤ u64Max ∧ (w.state.thresholds id).length ≤ 32 ∧
        ∀ i threshold, (w.state.thresholds id)[i]? = some threshold →
          v.deadline - e.timestamp ≤ threshold → i ∉ staleFlags id ks := by
  have h : FlagsKept (firedInCycle id ks) (staleFlags id ks) (w.state.flags id) :=
    flags_of_run h₀ hrun
  constructor
  · rintro ⟨ttl, notices, t, hcheck, -, -, hfires⟩
    obtain ⟨_, rfl, hdeadline, hlen, hr, -⟩ := (ok_checkCountdown hv hlocked).mp hcheck
    obtain ⟨-, rfl⟩ := Prod.mk.inj hr
    refine ⟨hdeadline, hlen, fun i threshold hi hle hstale => ?_⟩
    have hset := (h.flags_iff i).mpr (.inr hstale)
    rcases List.mem_append.mp (hfires i threshold hi hle) with hnew | hold
    · rw [firingOf_notices, mem_duePositions, hset] at hnew
      cases hnew.1
    · exact h.fresh i hold hstale
  · rintro ⟨hdeadline, hlen, hstale⟩
    have hcheck := (ok_checkCountdown (e := e) hv hlocked).mpr ⟨_, rfl, hdeadline, hlen, rfl, rfl⟩
    refine ⟨_, _, _, hcheck, (h.check hcheck).once, fun n hn => ?_, fun i threshold hi hle => ?_⟩
    · rw [firingOf_notices, mem_dueNotices] at hn
      exact ⟨List.mk_mem_zipIdx_iff_getElem?.mp hn.1, hn.2.2.1⟩
    · rw [List.mem_append, firingOf_notices, mem_duePositions]
      by_cases hset : (w.state.flags id).testBit i = true
      · exact .inr (((h.flags_iff i).mp hset).resolve_right (hstale i threshold hi hle))
      · exact .inl ⟨Bool.eq_false_iff.mpr hset, threshold, hi, hle⟩

end Runs

/-- Takes calls one after the other, as long as they succeed. -/
def playCountdown : CountdownWorld → List (Env × CountdownCall) →
    Option (List CountdownEvent × CountdownWorld) :=
  Runs.play (fun w p =>
    if w.clock ≤ p.1.timestamp then
      match execCountdown p.2 p.1 w.state with
      | .ok (notices, t) => some (.call w.state.contract p.2 notices, ⟨t, p.1.timestamp⟩)
      | .error _ => none
    else none) fun _ _ => true

theorem run_of_playCountdown {w w' : CountdownWorld} {cs : List (Env × CountdownCall)}
    {ks : List CountdownEvent} (h : playCountdown w cs = some (ks, w')) :
    Run CountdownStep w ks w' := by
  refine (@Runs.run_of_play _ _ CountdownStep _ _ _ _ _ _ _ ?_ h).unguard
  intro w p k u hnext
  split at hnext
  case isTrue hclock =>
    split at hnext
    case h_1 notices t hexec =>
      obtain ⟨rfl, rfl⟩ := Prod.mk.inj (Option.some.inj hnext)
      exact .call hclock hexec
    case h_2 => cases hnext
  case isFalse => cases hnext

def initialisedCountdown (token admin : Address) : CountdownWorld :=
  ⟨⟨(initialised token admin).state, fun _ => none, fun _ => none⟩, 0⟩

theorem genesis_countdown {token admin : Address} (h : token ≠ admin)
    (ha : admin ≠ currentContractAddress) : CountdownGenesis (initialisedCountdown token admin) :=
  ⟨genesis_initialised h ha, fun _ => ⟨rfl, rfl⟩⟩

/-- A threshold that has fired fires again after a check-in. -/
theorem countdown_fires_again : ∃ w₀ w : CountdownWorld, ∃ ks v, CountdownGenesis w₀ ∧
    Run CountdownStep w₀ ks w ∧ w.state.contract.vault 1 = some v ∧
      firedInCycle 1 ks.tail = [1, 0] ∧ FiresOncePerCycle 1 ks (signedBy [] 960) w.state v := by
  have hplay : (playCountdown (initialisedCountdown ⟨8⟩ ⟨9⟩)
      [(signedBy [⟨1⟩] 0, .contract (.vault (.createVault ⟨1⟩ ⟨2⟩ 100 none))),
        (signedBy [⟨1⟩] 0, .setCountdownConfig 1 ⟨1⟩ [50, 20]),
        (signedBy [] 50, .checkCountdown 1), (signedBy [] 90, .checkCountdown 1),
        (signedBy [⟨1⟩] 900, .contract
          (.checkIn (.checkIn 1 ⟨1⟩ (Vector.replicate 32 1) 0)))]).any (fun (ks, w) =>
      (w.state.contract.vault 1).any fun v => decide (v.status = .locked) &&
        decide (v.deadline = 1000) && decide (w.state.thresholds 1 = [50, 20]) &&
        decide (staleFlags 1 ks = []) && decide (firedInCycle 1 ks.tail = [1, 0])) = true := by
    decide +kernel
  obtain ⟨⟨ks, w⟩, hw, hchecks⟩ := (Option.any_eq_true _ _).mp hplay
  simp only [Bool.and_eq_true, Option.any_eq_true, decide_eq_true_eq] at hchecks
  obtain ⟨v, hv, ⟨⟨⟨hlocked, hdeadline⟩, hthresholds⟩, hstale⟩, hfired⟩ := hchecks
  refine ⟨_, w, ks, v, genesis_countdown (by decide) (by decide), run_of_playCountdown hw, hv, hfired,
    (countdown_fires_iff (genesis_countdown (by decide) (by decide)) (run_of_playCountdown hw) hv
      hlocked).mpr ⟨by rw [hdeadline]; decide, by rw [hthresholds]; decide, ?_⟩⟩
  simp [hstale]

/-- The owner checks in with a batch after a threshold has fired: it does not fire again. -/
theorem countdown_silent_after_batch : ¬ ∀ (w₀ w : CountdownWorld) (ks : List CountdownEvent) (e : Env)
    (id : Nat) (v : Vault), CountdownGenesis w₀ → Run CountdownStep w₀ ks w →
    w.state.contract.vault id = some v → v.status = .locked → w.clock ≤ e.timestamp →
    FiresOncePerCycle id ks e w.state v := by
  have hplay : (playCountdown (initialisedCountdown ⟨8⟩ ⟨9⟩)
      [(signedBy [⟨1⟩] 0, .contract (.vault (.createVault ⟨1⟩ ⟨2⟩ 100 none))),
        (signedBy [⟨1⟩] 0, .setCountdownConfig 1 ⟨1⟩ [50]),
        (signedBy [] 50, .checkCountdown 1),
        (signedBy [⟨1⟩] 60, .contract (.checkIn (.batchCheckIn [1] ⟨1⟩)))]).any (fun (ks, w) =>
      (w.state.contract.vault 1).any fun v => decide (v.status = .locked) &&
        decide (firedInCycle 1 ks = []) && decide (v.deadline - (signedBy [] 150).timestamp = 10) &&
        decide (w.clock ≤ (signedBy [] 150).timestamp) && decide (w.state.thresholds 1 = [50]) &&
        decide (w.state.flags 1 = 1)) = true := by
    decide +kernel
  obtain ⟨⟨ks, w⟩, hw, hchecks⟩ := (Option.any_eq_true _ _).mp hplay
  simp only [Bool.and_eq_true, Option.any_eq_true, decide_eq_true_eq] at hchecks
  obtain ⟨v, hv, ⟨⟨⟨⟨hlocked, hfired⟩, hremaining⟩, hclock⟩, hthresholds⟩, hflags⟩ := hchecks
  intro h
  obtain ⟨ttl, notices, t, hcheck, -, -, hfires⟩ := h _ w ks (signedBy [] 150) 1 v
    (genesis_countdown (by decide) (by decide)) (run_of_playCountdown hw) hv hlocked hclock
  obtain ⟨_, rfl, -, -, hr, -⟩ := (ok_checkCountdown hv hlocked).mp hcheck
  obtain ⟨-, rfl⟩ := Prod.mk.inj hr
  have hmem := hfires 0 50 (by rw [hthresholds]; rfl) (by rw [hremaining]; decide)
  rw [hfired, List.append_nil, firingOf_notices, mem_duePositions, hflags] at hmem
  exact absurd hmem.1 (by decide)

end Heirloom
