import Heirloom.Backend.Consensus

/-!
# Lost updates of the cache consensus

`put` stamps its entry and stores it in a later step. `check_and_resolve` copies the backend
and the local cache, decides on the copies, and writes the winners back one key at a time.
What other nodes store in between is overwritten.

Results:
1. `newer_writes_stay`: in a run of `put` and `check_and_resolve` calls the time of the
   backend's entry of no key ever decreases, exactly if every put stores its entry before
   those of the key that are stamped later, and every write-back comes before puts of the
   key that are newer than both copies it was decided on.
2. `newer_write_lost`: a put that is overwritten by the winner of a check.
-/

namespace Heirloom.Backend.Consensus

open Runs SharedRegister

/-! ## Interleaved calls -/

/-- A call between two of its steps. A put has its entry, and then has stored it. A check
has copied the backend, has copied the local cache as well and has keys left, or has stored
a winner. -/
inductive Op (ι : Type)
  | stamped (i : ι) (entry : CacheEntry)
  | stored (i : ι) (entry : CacheEntry)
  | compared (i : ι) (remoteEntries : EntryMap)
  | resolving (i : ι) (remoteEntries localSnapshot : EntryMap) (keys : List String)
  | resolved (i : ι) (remoteEntries localSnapshot : EntryMap) (keys : List String)
      (winner : CacheEntry)
  | done

/-- The clock all entries are stamped from, the backend, the nodes, the calls by number,
and the entries that puts have stored so far. -/
structure World (ι : Type) where
  strategy : ConflictStrategy
  clock : Int
  backend : EntryMap
  nodes : ι → NodeCache
  ops : Nat → Option (Op ι)
  puts : List CacheEntry

/-- The clock ticks, a call with a number of its own begins, or a call takes a step. -/
inductive Action (ι : Type)
  | tick (now : Int)
  | put (c : Nat) (i : ι) (key value : String)
  | check (c : Nat) (i : ι)
  | resume (c : Nat)

section Steps

variable {ι : Type}

namespace World

/-- Nothing has been cached yet. -/
def new (strategy : ConflictStrategy) (clock : Int) (nodeId : ι → String) : World ι :=
  ⟨strategy, clock, [], fun i => ⟨nodeId i, []⟩, fun _ => none, []⟩

/-- The call `c` is at `op`. -/
def advance (w : World ι) (c : Nat) (op : Op ι) : World ι :=
  { w with ops := Function.update w.ops c (some op) }

def setEntry (w : World ι) (entry : CacheEntry) : World ι :=
  { w with backend := w.backend.insert entry }

/-- The node `i` puts an entry into its local cache. -/
def insertLocal [DecidableEq ι] (w : World ι) (i : ι) (entry : CacheEntry) : World ι :=
  let node := w.nodes i
  let node := { node with localCache := node.localCache.insert entry }
  { w with nodes := Function.update w.nodes i node }

def recordPut (w : World ι) (entry : CacheEntry) : World ι :=
  { w with puts := entry :: w.puts }

end World

inductive Step [DecidableEq ι] : World ι → Action ι → World ι → Prop
  | tick {w : World ι} {now : Int} (h : w.clock ≤ now) :
      Step w (.tick now) { w with clock := now }
  | stamp {w : World ι} {c : Nat} {i : ι} {key value : String} (hc : w.ops c = none) :
      Step w (.put c i key value)
        (w.advance c (.stamped i (makeEntry (w.nodes i).nodeId key value w.clock)))
  | store {w : World ι} {c : Nat} {i : ι} {entry : CacheEntry}
      (hc : w.ops c = some (.stamped i entry)) :
      Step w (.resume c) (((w.setEntry entry).recordPut entry).advance c (.stored i entry))
  | keep {w : World ι} {c : Nat} {i : ι} {entry : CacheEntry}
      (hc : w.ops c = some (.stored i entry)) :
      Step w (.resume c) ((w.insertLocal i entry).advance c .done)
  | compare {w : World ι} {c : Nat} {i : ι} (hc : w.ops c = none) :
      Step w (.check c i) (w.advance c (.compared i w.backend))
  | copy {w : World ι} {c : Nat} {i : ι} {remoteEntries : EntryMap} {allKeys : List String}
      (hc : w.ops c = some (.compared i remoteEntries))
      (hkeys : IsKeySet allKeys (w.nodes i).localCache remoteEntries) :
      Step w (.resume c) (w.advance c (.resolving i remoteEntries (w.nodes i).localCache allKeys))
  | agree {w : World ι} {c : Nat} {i : ι} {remoteEntries localSnapshot : EntryMap}
      {key : String} {keys : List String}
      (hc : w.ops c = some (.resolving i remoteEntries localSnapshot (key :: keys)))
      (hequal : entriesEqual (localSnapshot.get key) (remoteEntries.get key) = true) :
      Step w (.resume c) (w.advance c (.resolving i remoteEntries localSnapshot keys))
  | resolve {w : World ι} {c : Nat} {i : ι} {remoteEntries localSnapshot : EntryMap}
      {key : String} {keys : List String} {winner : CacheEntry}
      (hc : w.ops c = some (.resolving i remoteEntries localSnapshot (key :: keys)))
      (hequal : entriesEqual (localSnapshot.get key) (remoteEntries.get key) = false)
      (hwinner : resolveConflict (localSnapshot.get key) (remoteEntries.get key) w.strategy =
        some winner) :
      Step w (.resume c)
        ((w.setEntry winner).advance c (.resolved i remoteEntries localSnapshot keys winner))
  | adopt {w : World ι} {c : Nat} {i : ι} {remoteEntries localSnapshot : EntryMap}
      {keys : List String} {winner : CacheEntry}
      (hc : w.ops c = some (.resolved i remoteEntries localSnapshot keys winner)) :
      Step w (.resume c)
        ((w.insertLocal i winner).advance c (.resolving i remoteEntries localSnapshot keys))

/-! ## Times -/

/-- The time of an entry, below all times if there is none. -/
def time? (entry : Option CacheEntry) : WithBot Int := entry.map (·.updatedAt)

/-- The time of the backend's entry of no key decreases. -/
def Keeps (w w' : World ι) : Prop :=
  ∀ key, time? (w.backend.get key) ≤ time? (w'.backend.get key)

/-- The next step of the call writes no entry to the backend after a put of the key that is
newer: than the entry of a put, or than both copies of a check. -/
def InOrder (w : World ι) : Action ι → Prop
  | .resume c =>
      (∀ i entry, w.ops c = some (.stamped i entry) →
        ∀ x ∈ w.puts, x.key = entry.key → x.updatedAt ≤ entry.updatedAt) ∧
      ∀ i remoteEntries localSnapshot key keys,
        w.ops c = some (.resolving i remoteEntries localSnapshot (key :: keys)) →
        entriesEqual (localSnapshot.get key) (remoteEntries.get key) = false →
        ∀ x ∈ w.puts, x.key = key → (x.updatedAt : WithBot Int) ≤ time? (localSnapshot.get key) ∨
          (x.updatedAt : WithBot Int) ≤ time? (remoteEntries.get key)
  | _ => True

/-- A step after which no time has decreased. -/
def KeepingStep [DecidableEq ι] (w : World ι) (k : Action ι) (w' : World ι) : Prop :=
  Step w k w' ∧ Keeps w w'

/-- The winner has the later of the two times. -/
theorem time_resolveConflict (x y : Option CacheEntry) :
    time? (resolveConflict x y .lastWriteWins) = max (time? x) (time? y) := by
  cases x with
  | none =>
      cases y with
      | none => exact (max_self _).symm
      | some y => exact (max_eq_right bot_le).symm
  | some x =>
      cases y with
      | none => exact (max_eq_left bot_le).symm
      | some y =>
          show time? (some (pickLatestByTimestamp x y)) = _
          unfold pickLatestByTimestamp
          split
          · next h => exact (max_eq_left (WithBot.coe_le_coe.mpr h)).symm
          · next h => exact (max_eq_right (WithBot.coe_le_coe.mpr (not_le.mp h).le)).symm

theorem keeps_setEntry_iff {w w' : World ι} {entry : CacheEntry}
    (h : w'.backend = w.backend.insert entry) :
    Keeps w w' ↔ time? (w.backend.get entry.key) ≤ entry.updatedAt := by
  unfold Keeps
  rw [h]
  constructor
  · intro hkeeps
    have := hkeeps entry.key
    rwa [get_insert_self] at this
  · intro hle key
    rcases eq_or_ne key entry.key with rfl | hne
    · rw [get_insert_self]
      exact hle
    · rw [get_insert_of_ne hne]

/-! ## Where entries come from -/

/-- Every entry of the map has been put. -/
def AllPut (w : World ι) (entries : EntryMap) : Prop :=
  ∀ key entry, entries.get key = some entry → entry ∈ w.puts

/-- What a call carries has been put, but for the entry a put has still to store. -/
def OpOk (w : World ι) : Op ι → Prop
  | .stamped _ _ => True
  | .stored _ entry => entry ∈ w.puts
  | .compared _ remoteEntries => AllPut w remoteEntries
  | .resolving _ remoteEntries localSnapshot _ =>
      AllPut w remoteEntries ∧ AllPut w localSnapshot
  | .resolved _ remoteEntries localSnapshot _ winner =>
      AllPut w remoteEntries ∧ AllPut w localSnapshot ∧ winner ∈ w.puts
  | .done => True

/-- All entries have been put, and the backend has a newest put of every key. -/
structure Sourced (w : World ι) : Prop where
  strategy : w.strategy = .lastWriteWins
  backend : AllPut w w.backend
  nodes : ∀ i, AllPut w (w.nodes i).localCache
  ops : ∀ c op, w.ops c = some op → OpOk w op
  newest : ∀ x ∈ w.puts, (x.updatedAt : WithBot Int) ≤ time? (w.backend.get x.key)

section Kept

variable {w w' : World ι} {k : Action ι} {c : Nat} {op : Op ι} {entries : EntryMap}
  {entry : CacheEntry} {i : ι}

theorem AllPut.mono (h : AllPut w entries) (hputs : ∀ x ∈ w.puts, x ∈ w'.puts) :
    AllPut w' entries :=
  fun key entry hget => hputs entry (h key entry hget)

theorem AllPut.insert (h : AllPut w entries) (hentry : entry ∈ w.puts) :
    AllPut w (entries.insert entry) := by
  intro key found hget
  rcases eq_or_ne key entry.key with rfl | hne
  · rw [get_insert_self] at hget
    exact Option.some.inj hget ▸ hentry
  · rw [get_insert_of_ne hne] at hget
    exact h key found hget

theorem OpOk.mono (h : OpOk w op) (hputs : ∀ x ∈ w.puts, x ∈ w'.puts) : OpOk w' op := by
  cases op with
  | stamped | done => trivial
  | stored i entry => exact hputs entry h
  | compared i remoteEntries => exact AllPut.mono h hputs
  | resolving i remoteEntries localSnapshot keys => exact ⟨h.1.mono hputs, h.2.mono hputs⟩
  | resolved i remoteEntries localSnapshot keys winner =>
      exact ⟨h.1.mono hputs, h.2.1.mono hputs, hputs winner h.2.2⟩

theorem opOk_advance (hops : ∀ c op, w.ops c = some op → OpOk w op) (hop : OpOk w op) (c' : Nat)
    (op' : Op ι) (h : (w.advance c op).ops c' = some op') : OpOk (w.advance c op) op' := by
  have hok : OpOk w op' := by
    rcases eq_or_ne c' c with rfl | hne
    · simp only [World.advance, Function.update_self] at h
      exact Option.some.inj h ▸ hop
    · simp only [World.advance, Function.update_of_ne hne] at h
      exact hops c' op' h
  exact hok.mono fun x hx => hx

theorem Sourced.advance (h : Sourced w) (hop : OpOk w op) : Sourced (w.advance c op) :=
  ⟨h.strategy, h.backend, h.nodes, opOk_advance h.ops hop, h.newest⟩

theorem Sourced.insertLocal [DecidableEq ι] (h : Sourced w) (hentry : entry ∈ w.puts) :
    Sourced (w.insertLocal i entry) := by
  refine ⟨h.strategy, h.backend, fun j => ?_, fun c op hc => (h.ops c op hc).mono fun x hx => hx,
    h.newest⟩
  rcases eq_or_ne j i with rfl | hne
  · simp only [World.insertLocal, Function.update_self]
    exact (h.nodes j).insert hentry
  · simp only [World.insertLocal, Function.update_of_ne hne]
    exact h.nodes j

/-- A put that decreases no time becomes the newest of its key. -/
theorem Sourced.storePut (h : Sourced w) (hkeeps : Keeps w (w.setEntry entry)) :
    Sourced ((w.setEntry entry).recordPut entry) := by
  have hputs : ∀ x ∈ w.puts, x ∈ ((w.setEntry entry).recordPut entry).puts :=
    fun x hx => List.mem_cons_of_mem _ hx
  refine ⟨h.strategy, ?_, fun i => (h.nodes i).mono hputs, fun c op hc => (h.ops c op hc).mono hputs,
    fun x hx => ?_⟩
  · exact (h.backend.mono hputs).insert List.mem_cons_self
  · rcases List.mem_cons.mp hx with rfl | hx
    · show _ ≤ time? ((w.backend.insert x).get x.key)
      rw [get_insert_self]
      exact le_rfl
    · exact (h.newest x hx).trans (hkeeps x.key)

theorem Sourced.storeWinner (h : Sourced w) (hentry : entry ∈ w.puts)
    (hkeeps : Keeps w (w.setEntry entry)) : Sourced (w.setEntry entry) :=
  ⟨h.strategy, h.backend.insert hentry, h.nodes, h.ops,
    fun x hx => (h.newest x hx).trans (hkeeps x.key)⟩

/-- The winner of two copies is one of them, so it has been put. -/
theorem winner_mem {remoteEntries localSnapshot : EntryMap} {key : String} {winner : CacheEntry}
    {strategy : ConflictStrategy} (hremote : AllPut w remoteEntries)
    (hlocal : AllPut w localSnapshot)
    (hwinner : resolveConflict (localSnapshot.get key) (remoteEntries.get key) strategy =
      some winner) : winner ∈ w.puts ∧ winner.key = key := by
  refine ⟨?_, key_of_winner hwinner⟩
  rcases resolveConflict_choice with h | h
  · exact hlocal key winner (h.symm.trans hwinner)
  · exact hremote key winner (h.symm.trans hwinner)

theorem sourced_step [DecidableEq ι] (h : Sourced w) (hk : KeepingStep w k w') : Sourced w' := by
  obtain ⟨hstep, hkeeps⟩ := hk
  cases hstep with
  | tick _ =>
      exact ⟨h.strategy, h.backend, h.nodes, fun c op hc => (h.ops c op hc).mono fun x hx => hx,
        h.newest⟩
  | stamp hc => exact h.advance trivial
  | store hc => exact (h.storePut hkeeps).advance List.mem_cons_self
  | keep hc => exact (h.insertLocal (h.ops _ _ hc)).advance trivial
  | compare hc => exact h.advance h.backend
  | copy hc hkeys => exact h.advance ⟨h.ops _ _ hc, h.nodes _⟩
  | agree hc hequal =>
      obtain ⟨hremote, hlocal⟩ := h.ops _ _ hc
      exact h.advance ⟨hremote, hlocal⟩
  | resolve hc hequal hwinner =>
      obtain ⟨hremote, hlocal⟩ := h.ops _ _ hc
      have hmem := (winner_mem hremote hlocal hwinner).1
      exact (h.storeWinner hmem hkeeps).advance ⟨hremote, hlocal, hmem⟩
  | adopt hc =>
      obtain ⟨hremote, hlocal, hwinner⟩ := h.ops _ _ hc
      exact (h.insertLocal hwinner).advance ⟨hremote, hlocal⟩

/-- The backend's entry of a key is not newer than an entry exactly if no put is. -/
theorem Sourced.time_le_iff (h : Sourced w) (key : String) (bound : WithBot Int) :
    time? (w.backend.get key) ≤ bound ↔
      ∀ x ∈ w.puts, x.key = key → (x.updatedAt : WithBot Int) ≤ bound := by
  constructor
  · rintro hle x hx rfl
    exact (h.newest x hx).trans hle
  · intro hall
    cases hget : w.backend.get key with
    | none => exact bot_le
    | some entry => exact hall entry (h.backend key entry hget) (key_of_get hget)

theorem keeps_of_backend_eq (h : w'.backend = w.backend) : Keeps w w' := by
  intro key
  rw [h]

/-- The next step of the call writes nothing to the backend. -/
theorem inOrder_of_ops (hop : w.ops c = some op) (hstamped : ∀ i entry, op ≠ .stamped i entry)
    (hresolving : ∀ i remoteEntries localSnapshot key keys,
      op = .resolving i remoteEntries localSnapshot (key :: keys) →
        entriesEqual (localSnapshot.get key) (remoteEntries.get key) = true) :
    InOrder w (.resume c) := by
  constructor
  · intro i entry hc
    exact absurd (Option.some.inj (hop.symm.trans hc)) (hstamped i entry)
  · intro i remoteEntries localSnapshot key keys hc hequal
    have := hresolving i remoteEntries localSnapshot key keys (Option.some.inj (hop.symm.trans hc))
    rw [this] at hequal
    cases hequal

theorem keeps_iff [DecidableEq ι] (h : Sourced w) (hstep : Step w k w') : Keeps w w' ↔ InOrder w k := by
  cases hstep with
  | tick | stamp | compare => exact iff_of_true (keeps_of_backend_eq rfl) trivial
  | keep hc | copy hc | adopt hc =>
      exact iff_of_true (keeps_of_backend_eq rfl)
        (inOrder_of_ops hc (fun _ _ hop => by cases hop) fun _ _ _ _ _ hop => by cases hop)
  | agree hc hequal =>
      refine iff_of_true (keeps_of_backend_eq rfl)
        (inOrder_of_ops hc (fun _ _ hop => by cases hop) fun _ _ _ _ _ hop => ?_)
      cases hop
      exact hequal
  | @store c i entry hc =>
      rw [keeps_setEntry_iff rfl, h.time_le_iff]
      simp only [WithBot.coe_le_coe]
      constructor
      · refine fun hall => ⟨fun j stamped hop => ?_, fun _ _ _ _ _ hop => ?_⟩
        · cases hc.symm.trans hop
          exact hall
        · cases hc.symm.trans hop
      · exact fun hall => hall.1 i entry hc
  | @resolve c i remoteEntries localSnapshot key keys winner hc hequal hwinner =>
      obtain ⟨hremote, hlocal⟩ := h.ops _ _ hc
      obtain rfl := (winner_mem hremote hlocal hwinner).2
      have htime : (winner.updatedAt : WithBot Int) =
          max (time? (localSnapshot.get winner.key)) (time? (remoteEntries.get winner.key)) := by
        rw [← time_resolveConflict, ← h.strategy, hwinner]
        rfl
      rw [keeps_setEntry_iff rfl, h.time_le_iff, htime]
      simp only [le_max_iff]
      constructor
      · refine fun hall => ⟨fun _ _ hop => ?_, fun _ _ _ _ _ hop _ => ?_⟩
        · cases hc.symm.trans hop
        · cases hc.symm.trans hop
          exact hall
      · exact fun hall => hall.2 i remoteEntries localSnapshot winner.key keys hc hequal

/-! ## Runs -/

variable {ks : List (Action ι)} {clock : Int} {nodeId : ι → String}

theorem sourced_new : Sourced (World.new .lastWriteWins clock nodeId) := by
  refine ⟨rfl, fun _ _ h => ?_, fun _ _ _ h => ?_, fun _ _ h => ?_, fun _ h => ?_⟩ <;> cases h

/-- A run decreases no time exactly if its writes are in order. -/
theorem newer_writes_stay [DecidableEq ι] :
    Run KeepingStep (World.new .lastWriteWins clock nodeId) ks w ↔
      Run (Guarded Step InOrder) (World.new .lastWriteWins clock nodeId) ks w := by
  constructor
  · intro h
    induction h with
    | start => exact .start
    | next hrun hk ih =>
        have hsourced := hrun.invariant sourced_new fun _ _ _ => sourced_step
        exact .next ih ⟨hk.1, (keeps_iff hsourced hk.1).mp hk.2⟩
  · intro h
    induction h with
    | start => exact .start
    | next _ hk ih =>
        have hsourced := ih.invariant sourced_new fun _ _ _ => sourced_step
        exact .next ih ⟨hk.1, (keeps_iff hsourced hk.1).mpr hk.2⟩

end Kept

end Steps

/-- A check copies the backend, another node puts a newer entry, and the check writes the
older one back. -/
theorem newer_write_lost : ∃ (ks : List (Action (Fin 2))) (k : Action (Fin 2))
    (w w' : World (Fin 2)), Run Step (World.new .lastWriteWins 1 fun _ => "node") ks w ∧
      Step w k w' ∧ ¬ Keeps w w' := by
  have h₁ := Run.next .start (@Step.stamp (Fin 2) _
    (World.new .lastWriteWins 1 fun _ => "node") 0 0 "vault-1" "old" rfl)
  have h₂ := Run.next h₁ (.store (c := 0) rfl)
  have h₃ := Run.next h₂ (.compare (c := 1) (i := 1) rfl)
  have hkeys : IsKeySet ["vault-1"] []
      (EntryMap.insert [] (makeEntry "node" "vault-1" "old" 1)) :=
    ⟨by simp, fun key => by simp [EntryMap.keys, EntryMap.insert, makeEntry]⟩
  have h₄ := Run.next h₃ (.copy (c := 1) rfl hkeys)
  have h₅ := Run.next h₄ (@Step.tick _ _ _ 2 (by decide))
  have h₆ := Run.next h₅ (@Step.stamp _ _ _ 2 0 "vault-1" "new" rfl)
  have h₇ := Run.next h₆ (.store (c := 2) rfl)
  refine ⟨_, _, _, _, h₇, .resolve (c := 1) rfl rfl rfl, fun hkeeps => ?_⟩
  exact absurd (hkeeps "vault-1") (by decide)

end Heirloom.Backend.Consensus
