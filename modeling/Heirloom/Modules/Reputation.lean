import Heirloom.Modules.Host
import Heirloom.Vaults

/-!
# Reputation of attestors

The owner of any vault lowers the reputation of an attestor on a slice by a rate, or raises it by
a share of what is missing. Each change leaves an entry in a history, under the number of entries
that there were before.

Results:
1. `reputation_replays`: in every run the stored factor and the stored history are those of a log
   that is replayed from the calls. The log is a chain from the full reputation on, no factor
   leaves its range, and a read gives the newest entries first.
-/

namespace Heirloom.Modules.Reputation

open Transaction TypedStore Runs

/-! ## Storage -/

structure DecayHistoryEntry where
  appliedAt : Nat
  decayRateBps : Nat
  reputationBefore : Nat
  reputationAfter : Nat
  reason : String
deriving DecidableEq

/-- The keys of `SlicePerfKey` that reputations are kept under. -/
inductive SlicePerfKey
  | reputationDecay (sliceId : Nat) (attestor : Address)
  | decayHistory (sliceId : Nat) (attestor : Address) (index : Nat)
  | decayHistoryCount (sliceId : Nat) (attestor : Address)
deriving DecidableEq

/-- The type of the value under a key. -/
@[reducible] def SlicePerfKey.Value : SlicePerfKey → Type
  | .reputationDecay _ _ => Nat
  | .decayHistory _ _ _ => DecayHistoryEntry
  | .decayHistoryCount _ _ => Nat

abbrev State := Store SlicePerfKey.Value

abbrev storageGet (k : SlicePerfKey) : Routine SlicePerfKey.Value (Option k.Value) := load k

abbrev storageSet (k : SlicePerfKey) (v : k.Value) : Routine SlicePerfKey.Value Unit := save k v

/-! ## Functions -/

def saturatingMul32 (a b : Nat) : Nat := min (a * b) u32Max

def recordDecayHistory (sliceId : Nat) (attestor : Address)
    (rateBps reputationBefore reputationAfter : Nat) (reason : String) :
    Routine SlicePerfKey.Value Unit := do
  let found : Option Nat ← storageGet (.decayHistoryCount sliceId attestor)
  let currentCount := found.getD 0
  let now ← ask (·.timestamp)
  storageSet (.decayHistory sliceId attestor currentCount)
    ⟨now, rateBps, reputationBefore, reputationAfter, reason⟩
  storageSet (.decayHistoryCount sliceId attestor) (saturatingAdd64 currentCount 1)

def applyReputationDecay (sliceId : Nat) (attestor : Address) (decayRateBps : Nat)
    (reason : String) : Routine SlicePerfKey.Value Nat := do
  let found : Option Nat ← storageGet (.reputationDecay sliceId attestor)
  let currentReputation := found.getD 10000
  let newReputation := saturatingMul32 currentReputation decayRateBps / 10000
  storageSet (.reputationDecay sliceId attestor) newReputation
  recordDecayHistory sliceId attestor decayRateBps currentReputation newReputation reason
  pure newReputation

def applyReputationRecovery (sliceId : Nat) (attestor : Address) (improvementRateBps : Nat) :
    Routine SlicePerfKey.Value Nat := do
  let found : Option Nat ← storageGet (.reputationDecay sliceId attestor)
  let currentReputation := found.getD 10000
  if 10000 ≤ currentReputation then pure currentReputation
  else do
    let maxRecovery := 10000 - currentReputation
    let recoveryAmount := saturatingMul32 maxRecovery improvementRateBps / 10000
    let newReputation := min (min (currentReputation + recoveryAmount) u32Max) 10000
    storageSet (.reputationDecay sliceId attestor) newReputation
    recordDecayHistory sliceId attestor improvementRateBps currentReputation newReputation
      "reputation_recovery"
    pure newReputation

def getReputationFactor (sliceId : Nat) (attestor : Address) : Routine SlicePerfKey.Value Nat := do
  let found : Option Nat ← storageGet (.reputationDecay sliceId attestor)
  pure (found.getD 10000)

/-- The loop of `getDecayHistory`, from below the given index down. -/
def collectHistory (sliceId : Nat) (attestor : Address) (limit : Nat) :
    Nat → Nat → List DecayHistoryEntry → Routine SlicePerfKey.Value (List DecayHistoryEntry)
  | 0, _, entries => pure entries
  | i + 1, retrieved, entries =>
      if limit ≤ retrieved then pure entries
      else do
        let found : Option DecayHistoryEntry ← storageGet (.decayHistory sliceId attestor i)
        match found with
        | some entry =>
            collectHistory sliceId attestor limit i (saturatingAdd64 retrieved 1)
              (entries ++ [entry])
        | none => collectHistory sliceId attestor limit i retrieved entries

def getDecayHistory (sliceId : Nat) (attestor : Address) (limit : Nat) :
    Routine SlicePerfKey.Value (List DecayHistoryEntry) := do
  let found : Option Nat ← storageGet (.decayHistoryCount sliceId attestor)
  let totalCount := found.getD 0
  if totalCount = 0 then pure []
  else collectHistory sliceId attestor limit totalCount 0 []

/-! ## The entry points of the contract -/

inductive Call
  | applyReputationDecay (sliceId : Nat) (attestor : Address) (decayRateBps : Nat)
      (reason : String)
  | applyReputationRecovery (sliceId : Nat) (attestor : Address) (improvementRateBps : Nat)

/-- The rate of the call, in basis points. -/
def Call.rate : Call → Nat
  | .applyReputationDecay _ _ rate _ => rate
  | .applyReputationRecovery _ _ rate => rate

def Call.run : Call → Routine SlicePerfKey.Value Nat
  | .applyReputationDecay i a rate reason => Reputation.applyReputationDecay i a rate reason
  | .applyReputationRecovery i a rate => Reputation.applyReputationRecovery i a rate

def exec (vaultId : Nat) (caller : Address) (call : Call) : Routine SlicePerfKey.Value Unit := do
  requireVaultOwner vaultId caller
  require (call.rate ≤ 10000) .invalidBps
  let _ ← call.run

/-- A call with what it sees, the vault it is made for and its caller. -/
structure Event where
  env : Env
  vaultId : Nat
  caller : Address
  call : Call

/-- A call that succeeds; one that fails changes nothing. -/
def Step (s : State) (k : Event) (t : State) : Prop :=
  exec k.vaultId k.caller k.call k.env s = .ok ((), t)

/-! ## The log -/

/-- The factor after the entries of a log, newest first. -/
def factorOf (log : List DecayHistoryEntry) : Nat := (log.head?.map (·.reputationAfter)).getD 10000

/-- The entry that a call adds to a log. Nothing is recovered beyond the full reputation. -/
def Call.entry (now : Nat) (log : List DecayHistoryEntry) : Call → Option DecayHistoryEntry
  | .applyReputationDecay _ _ rate reason =>
      some ⟨now, rate, factorOf log, factorOf log * rate / 10000, reason⟩
  | .applyReputationRecovery _ _ rate =>
      if factorOf log < 10000 then
        some ⟨now, rate, factorOf log, factorOf log + (10000 - factorOf log) * rate / 10000,
          "reputation_recovery"⟩
      else none

/-- A slice and an attestor. -/
abbrev Subject := Nat × Address

def Call.subject : Call → Subject
  | .applyReputationDecay i a _ _ => (i, a)
  | .applyReputationRecovery i a _ => (i, a)

/-- The log of a subject, from the calls, newest first. -/
def logged (p : Subject) : List Event → List DecayHistoryEntry
  | [] => []
  | k :: ks =>
      if k.call.subject = p then
        (k.call.entry k.env.timestamp (logged p ks)).toList ++ logged p ks
      else logged p ks

/-- Every entry goes on from the factor before it; a log begins with the full reputation. -/
def Chained : List DecayHistoryEntry → Prop
  | [] => True
  | entry :: log => entry.reputationBefore = factorOf log ∧ Chained log

/-- Adds an entry to the `n` that are stored. -/
def appendEntry (s : State) (p : Subject) (n : Nat) (entry : DecayHistoryEntry) : State :=
  ((s.put (.reputationDecay p.1 p.2) entry.reputationAfter).put (.decayHistory p.1 p.2 n)
    entry).put (.decayHistoryCount p.1 p.2) (saturatingAdd64 n 1)

def factorAt (s : State) (p : Subject) : Nat := (s.get (.reputationDecay p.1 p.2)).getD 10000

def countAt (s : State) (p : Subject) : Nat := (s.get (.decayHistoryCount p.1 p.2)).getD 0

def entryAt (s : State) (p : Subject) (j : Nat) : Option DecayHistoryEntry :=
  s.get (.decayHistory p.1 p.2 j)

/-- What is stored is the log. -/
structure Keeps (s : State) (p : Subject) (log : List DecayHistoryEntry) : Prop where
  factor : factorAt s p = factorOf log
  count : countAt s p = log.length
  entries : ∀ j < log.length, entryAt s p j = log.reverse[j]?
  range : factorOf log ≤ 10000

section Steps

variable {s t : State} {e : Env} {p q : Subject} {log : List DecayHistoryEntry}
  {entry : DecayHistoryEntry} {call : Call} {k : Event} {ks : List Event} {n j : Nat}

theorem factorAt_append : factorAt (appendEntry s q n entry) p =
    if p = q then entry.reputationAfter else factorAt s p := by
  rcases eq_or_ne p q with rfl | hne
  · simp [factorAt, appendEntry]
  · have hkey : ¬ (p.1 = q.1 ∧ p.2 = q.2) := fun heq => hne (Prod.ext heq.1 heq.2)
    simp [factorAt, appendEntry, hne, hkey]

theorem countAt_append : countAt (appendEntry s q n entry) p =
    if p = q then saturatingAdd64 n 1 else countAt s p := by
  rcases eq_or_ne p q with rfl | hne
  · simp [countAt, appendEntry]
  · have hkey : ¬ (p.1 = q.1 ∧ p.2 = q.2) := fun heq => hne (Prod.ext heq.1 heq.2)
    simp [countAt, appendEntry, hne, hkey]

theorem entryAt_append : entryAt (appendEntry s q n entry) p j =
    if p = q ∧ j = n then some entry else entryAt s p j := by
  rcases eq_or_ne p q with rfl | hne
  · rcases eq_or_ne j n with rfl | hj
    · simp [entryAt, appendEntry]
    · simp [entryAt, appendEntry, hj]
  · have hkey : ¬ (p.1 = q.1 ∧ p.2 = q.2 ∧ j = n) := fun heq => hne (Prod.ext heq.1 heq.2.1)
    simp [entryAt, appendEntry, hne, hkey]

theorem Keeps.append (h : Keeps s p log) (hlt : log.length < u64Max)
    (hentry : entry.reputationAfter ≤ 10000) :
    Keeps (appendEntry s p log.length entry) p (entry :: log) := by
  refine ⟨?_, ?_, fun j hj => ?_, hentry⟩
  · rw [factorAt_append, if_pos rfl]
    rfl
  · rw [countAt_append, if_pos rfl]
    exact Nat.min_eq_left hlt
  · rw [entryAt_append, List.reverse_cons]
    rw [List.length_cons] at hj
    -- the place after the last entry is the only one that changes
    rcases Nat.lt_or_ge j log.length with hold | hnew
    · rw [if_neg (fun heq => Nat.ne_of_lt hold heq.2), h.entries j hold,
        List.getElem?_append_left (by simpa using hold)]
    · obtain rfl : j = log.length := by omega
      simp

theorem Keeps.append_of_ne (h : Keeps s p log) (hne : p ≠ q) :
    Keeps (appendEntry s q n entry) p log := by
  refine ⟨?_, ?_, fun j hj => ?_, h.range⟩
  · rw [factorAt_append, if_neg hne, h.factor]
  · rw [countAt_append, if_neg hne, h.count]
  · rw [entryAt_append, if_neg (fun heq => hne heq.1), h.entries j hj]

/-- A rate of at most the whole takes no more than there is. -/
theorem mul_rate_le {x rate : Nat} (hrate : rate ≤ 10000) : x * rate / 10000 ≤ x := by
  have hle : x * rate ≤ x * 10000 := Nat.mul_le_mul_left x hrate
  omega

theorem entry_range (hlog : factorOf log ≤ 10000) (hrate : call.rate ≤ 10000)
    (h : call.entry n log = some entry) : entry.reputationAfter ≤ 10000 := by
  cases call with
  | applyReputationDecay i a rate reason =>
      obtain rfl := Option.some.inj h
      exact le_trans (mul_rate_le hrate) hlog
  | applyReputationRecovery i a rate =>
      rw [Call.entry] at h
      split at h
      · obtain rfl := Option.some.inj h
        have hle : (10000 - factorOf log) * rate / 10000 ≤ 10000 - factorOf log :=
          mul_rate_le hrate
        show factorOf log + (10000 - factorOf log) * rate / 10000 ≤ 10000
        omega
      · cases h

/-- A call adds its entry, if it has one. -/
theorem run_ok (h : Keeps s call.subject log) (hrate : call.rate ≤ 10000) : ∃ r, call.run e s =
    .ok (r, (call.entry e.timestamp log).elim s (appendEntry s call.subject log.length)) := by
  -- neither product saturates, as long as the factor and the rate are in range
  have hroom : 10000 * 10000 ≤ u32Max := by decide
  cases call with
  | applyReputationDecay i a rate reason =>
      have hmul : saturatingMul32 (factorOf log) rate = factorOf log * rate :=
        Nat.min_eq_left (le_trans (Nat.mul_le_mul h.range hrate) hroom)
      refine ⟨factorOf log * rate / 10000, ?_⟩
      rw [Call.entry, Option.elim_some, ← hmul, ← h.factor, ← h.count]
      rfl
  | applyReputationRecovery i a rate =>
      have hfactor : factorAt s (i, a) = factorOf log := h.factor
      rcases Nat.lt_or_ge (factorOf log) 10000 with hlow | hfull
      · have hmul : saturatingMul32 (10000 - factorOf log) rate = (10000 - factorOf log) * rate :=
          Nat.min_eq_left (le_trans (Nat.mul_le_mul (Nat.sub_le _ _) hrate) hroom)
        have hle : (10000 - factorOf log) * rate / 10000 ≤ 10000 - factorOf log :=
          mul_rate_le hrate
        have hmax : 10000 ≤ u32Max := by decide
        have hmin : min (min (factorOf log + (10000 - factorOf log) * rate / 10000) u32Max) 10000 =
            factorOf log + (10000 - factorOf log) * rate / 10000 := by omega
        refine ⟨factorOf log + (10000 - factorOf log) * rate / 10000, ?_⟩
        rw [Call.entry, if_pos hlow, Option.elim_some, ← hmin, ← hmul, ← h.factor, ← h.count]
        show (if 10000 ≤ factorAt s (i, a) then _ else _ : Routine SlicePerfKey.Value Nat) e s = _
        rw [if_neg (by rw [hfactor]; omega)]
        rfl
      · refine ⟨factorOf log, ?_⟩
        rw [Call.entry, if_neg (Nat.not_lt.mpr hfull), Option.elim_none, ← h.factor]
        show (if 10000 ≤ factorAt s (i, a) then _ else _ : Routine SlicePerfKey.Value Nat) e s = _
        rw [if_pos (by rw [hfactor]; exact hfull)]
        rfl

theorem collectHistory_eq {limit : Nat} (log : List DecayHistoryEntry) (retrieved : Nat)
    (found : List DecayHistoryEntry) (hlog : ∀ j < log.length, entryAt s p j = log.reverse[j]?)
    (hroom : retrieved + log.length ≤ u64Max) :
    collectHistory p.1 p.2 limit log.length retrieved found e s =
      .ok (found ++ log.take (limit - retrieved), s) := by
  -- the loop counts down from the newest entry, so the induction is on the log
  induction log generalizing retrieved found with
  | nil => simp [collectHistory]
  | cons newest older ih =>
      rw [List.length_cons] at hlog hroom ⊢
      rw [collectHistory]
      rcases Nat.lt_or_ge retrieved limit with hmore | henough
      · have hnewest : entryAt s p older.length = some newest := by
          rw [hlog older.length (Nat.lt_succ_self _), List.reverse_cons]
          simp
        have holder : ∀ j < older.length, entryAt s p j = older.reverse[j]? := by
          intro j hj
          rw [hlog j (Nat.lt_succ_of_lt hj), List.reverse_cons,
            List.getElem?_append_left (by simpa using hj)]
        have hnext : saturatingAdd64 retrieved 1 = retrieved + 1 := Nat.min_eq_left (by omega)
        have hsucc : limit - retrieved = limit - (retrieved + 1) + 1 := by omega
        rw [if_neg (Nat.not_le.mpr hmore), Tx.bind_of_ok (ok_load.mpr ⟨hnewest, rfl⟩), hnext]
        refine (ih (retrieved + 1) (found ++ [newest]) holder (by omega)).trans ?_
        rw [hsucc, List.take_succ_cons, List.append_assoc, List.singleton_append]
      · rw [if_pos henough, Nat.sub_eq_zero_of_le henough, List.take_zero, List.append_nil]
        rfl

theorem getDecayHistory_eq {limit : Nat} (h : Keeps s p log) (hroom : log.length ≤ u64Max) :
    getDecayHistory p.1 p.2 limit e s = .ok (log.take limit, s) := by
  show (if countAt s p = 0 then pure [] else collectHistory p.1 p.2 limit (countAt s p) 0 [] :
    Routine SlicePerfKey.Value _) e s = _
  rw [h.count]
  cases log with
  | nil => simp
  | cons newest older =>
      rw [if_neg (by simp), collectHistory_eq _ 0 [] h.entries (by omega)]
      rfl

/-- A call that succeeds has an allowed rate and adds its entry. -/
theorem step_ok (h : Keeps s k.call.subject log) (hk : Step s k t) : k.call.rate ≤ 10000 ∧
    t = (k.call.entry k.env.timestamp log).elim s (appendEntry s k.call.subject log.length) := by
  obtain ⟨_, _, ⟨-, rfl⟩, _, _, ⟨hrate, rfl⟩, r, u, hrun, -, rfl⟩ :=
    show ∃ _ _, _ ∧ ∃ _ _, _ ∧ ∃ _ _, _ ∧ _ by
      simpa only [Step, exec, Tx.ok_bind, Tx.ok_pure, ok_requireVaultOwner, ok_require] using hk
  obtain ⟨r', hok⟩ := run_ok (e := k.env) h hrate
  rw [hok] at hrun
  exact ⟨hrate, (Prod.mk.inj (Except.ok.inj hrun)).2.symm⟩

theorem length_logged_le : (logged p ks).length ≤ ks.length := by
  induction ks with
  | nil => exact Nat.le_refl _
  | cons k ks ih =>
      rw [logged]
      split
      · cases k.call.entry k.env.timestamp (logged p ks) with
        | none => exact Nat.le_succ_of_le ih
        | some entry => exact Nat.succ_le_succ ih
      · exact Nat.le_succ_of_le ih

theorem Keeps.step (hall : ∀ p, Keeps s p (logged p ks)) (hlt : ks.length < u64Max)
    (hk : Step s k t) : Keeps t p (logged p (k :: ks)) := by
  obtain ⟨hrate, rfl⟩ := step_ok (hall k.call.subject) hk
  rw [logged]
  cases hentry : k.call.entry k.env.timestamp (logged k.call.subject ks) with
  | none =>
      rcases eq_or_ne k.call.subject p with rfl | hne
      · rw [if_pos rfl, hentry]
        exact hall _
      · rw [if_neg hne]
        exact hall p
  | some entry =>
      rcases eq_or_ne k.call.subject p with rfl | hne
      · rw [if_pos rfl, hentry]
        exact (hall _).append (lt_of_le_of_lt length_logged_le hlt)
          (entry_range (hall _).range hrate hentry)
      · rw [if_neg hne]
        exact (hall p).append_of_ne hne.symm

end Steps

/-! ## Runs -/

section Runs

variable {s : State} {ks : List Event}

theorem keeps_of_run (hrun : Run Step .empty ks s) (hlt : ks.length ≤ u64Max) (p : Subject) :
    Keeps s p (logged p ks) := by
  -- all subjects together, since a call is about any of them
  have hall : ks.length ≤ u64Max → ∀ p, Keeps s p (logged p ks) := by
    refine hrun.invariantHistory (I := fun ks s => ks.length ≤ u64Max →
      ∀ p, Keeps s p (logged p ks)) ?_ ?_
    · exact fun _ p => ⟨rfl, rfl, by simp [logged], by simp [logged, factorOf]⟩
    · intro ks s k t ih hk hlt p
      rw [List.length_cons] at hlt
      exact .step (ih (by omega)) (by omega) hk
  exact hall hlt p

theorem entry_before {call : Call} {now : Nat} {log : List DecayHistoryEntry}
    {entry : DecayHistoryEntry} (h : call.entry now log = some entry) :
    entry.reputationBefore = factorOf log := by
  cases call with
  | applyReputationDecay i a rate reason =>
      obtain rfl := Option.some.inj h
      rfl
  | applyReputationRecovery i a rate =>
      rw [Call.entry] at h
      split at h
      · obtain rfl := Option.some.inj h
        rfl
      · cases h

theorem logged_chained (p : Subject) (ks : List Event) : Chained (logged p ks) := by
  induction ks with
  | nil => exact trivial
  | cons k ks ih =>
      rw [logged]
      split
      · cases hentry : k.call.entry k.env.timestamp (logged p ks) with
        | none => exact ih
        | some entry => exact ⟨entry_before hentry, ih⟩
      · exact ih

/-- In every run, the stored factor is that of the log of the calls, which is a chain and never
leaves the range, and a read of the history gives the newest entries of the log, newest first. -/
theorem reputation_replays (hrun : Run Step .empty ks s) (hlt : ks.length ≤ u64Max) (i : Nat)
    (a : Address) (e : Env) :
    getReputationFactor i a e s = .ok (factorOf (logged (i, a) ks), s) ∧
    (∀ limit, getDecayHistory i a limit e s = .ok ((logged (i, a) ks).take limit, s)) ∧
    Chained (logged (i, a) ks) ∧ factorOf (logged (i, a) ks) ≤ 10000 := by
  have hkeeps : Keeps s (i, a) (logged (i, a) ks) := keeps_of_run hrun hlt (i, a)
  refine ⟨?_, fun limit => ?_, logged_chained (i, a) ks, hkeeps.range⟩
  · rw [← hkeeps.factor]
    rfl
  · exact getDecayHistory_eq hkeeps (le_trans length_logged_le hlt)

end Runs

/-! ## A run -/

/-- What the owner of vault 1 sees at time 7. -/
def ownerEnv : Env := ⟨7, fun _ => true,
  ⟨Store.put .empty (.vault 1) (emptyVault ⟨5⟩ ⟨6⟩ 100 0 ⟨8⟩ none), ⟨fun _ _ => 0, []⟩⟩⟩

/-- The reputation of an attestor is halved, and half of the loss is made good. -/
def halved : List Event :=
  [⟨ownerEnv, 1, ⟨5⟩, .applyReputationRecovery 1 ⟨11⟩ 5000⟩,
    ⟨ownerEnv, 1, ⟨5⟩, .applyReputationDecay 1 ⟨11⟩ 5000 "late"⟩]

theorem reputation_replays_halved : ∃ s, Run Step .empty halved s ∧
    getReputationFactor 1 ⟨11⟩ ownerEnv s = .ok (7500, s) ∧
    getDecayHistory 1 ⟨11⟩ 1 ownerEnv s =
      .ok ([⟨7, 5000, 5000, 7500, "reputation_recovery"⟩], s) := by
  have hdecay : Step .empty ⟨ownerEnv, 1, ⟨5⟩, .applyReputationDecay 1 ⟨11⟩ 5000 "late"⟩
      (appendEntry .empty (1, ⟨11⟩) 0 ⟨7, 5000, 10000, 5000, "late"⟩) := rfl
  have hrecovery : Step (appendEntry .empty (1, ⟨11⟩) 0 ⟨7, 5000, 10000, 5000, "late"⟩)
      ⟨ownerEnv, 1, ⟨5⟩, .applyReputationRecovery 1 ⟨11⟩ 5000⟩ (appendEntry
        (appendEntry .empty (1, ⟨11⟩) 0 ⟨7, 5000, 10000, 5000, "late"⟩) (1, ⟨11⟩) 1
        ⟨7, 5000, 5000, 7500, "reputation_recovery"⟩) := rfl
  have hrun : Run Step .empty halved _ := .next (.next .start hdecay) hrecovery
  obtain ⟨hfactor, hhistory, -⟩ := reputation_replays hrun (by decide) 1 ⟨11⟩ ownerEnv
  exact ⟨_, hrun, hfactor, hhistory 1⟩

end Heirloom.Modules.Reputation
