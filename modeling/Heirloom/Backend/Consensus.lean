import Mathlib.Data.Int.ConditionallyCompleteOrder
import Mathlib.Order.ConditionallyCompleteLattice.Basic
import Mathlib.Data.String.Basic
import Mathlib.Data.Prod.Lex
import Mathlib.Order.WithBot
import Mathlib.Order.OrderDual
import Heirloom.Lib.Runs
import Heirloom.Lib.SharedRegister

/-!
# Cache consensus

Every node keeps a local cache next to a backend that all nodes share. `put` writes an
entry to both. `check_and_resolve` compares the local cache with the backend and writes
the winner of every key that differs to both.

Both strategies order the entries of a key by a rank, the time or the version and the node,
and take the local one of two entries of one rank. So the choice is associative, but not
commutative for different entries of one rank.

Results:
1. `nodes_converge`: two rounds of `check_and_resolve` lead to one entry everywhere, in any
   orders, exactly if the entries of the highest rank are all the same, or all nodes hold
   one entry that the backend's does not exceed.
2. `nodes_diverge`: two nodes with different entries of one time.
-/

namespace Heirloom.Backend.Consensus

open Runs SharedRegister

/-! ## Entries -/

/-- A cache entry. Times are in nanoseconds since the epoch. -/
structure CacheEntry where
  key : String
  value : String
  nodeId : String
  updatedAt : Int
  version : Nat
deriving DecidableEq

inductive ConflictStrategy
  | lastWriteWins | voting
deriving DecidableEq

/-- A map from the keys of entries to the entries. -/
abbrev EntryMap := List CacheEntry

namespace EntryMap

def get (entries : EntryMap) (key : String) : Option CacheEntry :=
  entries.find? (·.key = key)

def insert (entries : EntryMap) (entry : CacheEntry) : EntryMap :=
  entry :: entries.filter (·.key ≠ entry.key)

def keys (entries : EntryMap) : List String := entries.map (·.key)

end EntryMap

def entriesEqual (a b : Option CacheEntry) : Bool := a = b

def pickLatestByTimestamp (localEntry remote : CacheEntry) : CacheEntry :=
  if localEntry.updatedAt ≥ remote.updatedAt then localEntry else remote

def pickByVoting (localEntry remote : CacheEntry) : CacheEntry :=
  if localEntry.version > remote.version then localEntry
  else if remote.version > localEntry.version then remote
  else if localEntry.nodeId ≤ remote.nodeId then localEntry
  else remote

def resolveConflict (localEntry remote : Option CacheEntry) (strategy : ConflictStrategy) :
    Option CacheEntry :=
  match localEntry, remote with
  | none, none => none
  | none, some remote => some remote
  | some localEntry, none => some localEntry
  | some localEntry, some remote =>
      match strategy with
      | .lastWriteWins => some (pickLatestByTimestamp localEntry remote)
      | .voting => some (pickByVoting localEntry remote)

/-- The version of an entry is its time in milliseconds, as a `u64`. -/
def makeEntry (nodeId key value : String) (now : Int) : CacheEntry :=
  ⟨key, value, nodeId, now, (now / 1000000 % 2 ^ 64).toNat⟩

/-! ## Nodes -/

structure NodeCache where
  nodeId : String
  localCache : EntryMap

structure ConflictDetail where
  key : String
  localEntry : Option CacheEntry
  remote : Option CacheEntry
  winner : Option CacheEntry
deriving DecidableEq

structure ConsensusReport where
  consistent : Bool
  nodeId : String
  strategy : ConflictStrategy
  conflicts : List ConflictDetail
  conflictsResolved : Nat
  keysChecked : Nat
deriving DecidableEq

/-- The backend, the local cache and the findings in the loop of `check_and_resolve`. -/
structure Check where
  backend : EntryMap
  localCache : EntryMap
  conflicts : List ConflictDetail
  conflictsResolved : Nat

/-- The loop body. It decides on the copies taken before the loop. -/
def checkKey (strategy : ConflictStrategy) (localSnapshot remoteEntries : EntryMap)
    (acc : Check) (key : String) : Check :=
  let localEntry := localSnapshot.get key
  let remoteEntry := remoteEntries.get key
  if entriesEqual localEntry remoteEntry then acc
  else
    let winner := resolveConflict localEntry remoteEntry strategy
    let conflicts := acc.conflicts ++ [⟨key, localEntry, remoteEntry, winner⟩]
    match winner with
    | some resolved =>
        ⟨acc.backend.insert resolved, acc.localCache.insert resolved, conflicts,
          acc.conflictsResolved + 1⟩
    | none => { acc with conflicts }

/-- A call of a node that no other step comes between; `allKeys` are the keys of the two
maps in the order their set has. -/
def checkAndResolve (strategy : ConflictStrategy) (node : NodeCache) (backend : EntryMap)
    (allKeys : List String) : ConsensusReport × NodeCache × EntryMap :=
  let result := allKeys.foldl (checkKey strategy node.localCache backend)
    ⟨backend, node.localCache, [], 0⟩
  (⟨result.conflicts.isEmpty, node.nodeId, strategy, result.conflicts, result.conflictsResolved,
    allKeys.length⟩, { node with localCache := result.localCache }, result.backend)

/-- The set of the keys of two maps, in some order. -/
structure IsKeySet (allKeys : List String) (localSnapshot remoteEntries : EntryMap) : Prop where
  nodup : allKeys.Nodup
  mem_iff : ∀ key, key ∈ allKeys ↔ key ∈ localSnapshot.keys ∨ key ∈ remoteEntries.keys

/-! ## Ranks -/

/-- What a strategy orders entries by: the time, or the version and then the node, with the
smaller node first. -/
def rank (strategy : ConflictStrategy) (entry : CacheEntry) : Int ×ₗ Stringᵒᵈ :=
  match strategy with
  | .lastWriteWins => toLex (entry.updatedAt, .toDual "")
  | .voting => toLex (entry.version, .toDual entry.nodeId)

/-- No entry ranks below every entry. -/
def rank? (strategy : ConflictStrategy) : Option CacheEntry → WithBot (Int ×ₗ Stringᵒᵈ)
  | none => ⊥
  | some entry => rank strategy entry

theorem pickLatestByTimestamp_eq (x y : CacheEntry) :
    pickLatestByTimestamp x y = pick (rank .lastWriteWins) x y := by
  unfold pickLatestByTimestamp pick
  have hiff : rank .lastWriteWins y ≤ rank .lastWriteWins x ↔ y.updatedAt ≤ x.updatedAt := by
    simp only [rank, Prod.Lex.toLex_le_toLex, le_refl, and_true]
    exact le_iff_lt_or_eq.symm
  simp only [hiff, ge_iff_le]

theorem pickByVoting_eq (x y : CacheEntry) : pickByVoting x y = pick (rank .voting) x y := by
  unfold pickByVoting pick
  have hiff : rank .voting y ≤ rank .voting x ↔
      y.version < x.version ∨ y.version = x.version ∧ x.nodeId ≤ y.nodeId := by
    simp only [rank, Prod.Lex.toLex_le_toLex, OrderDual.toDual_le_toDual, Int.ofNat_lt,
      Int.natCast_inj]
  rcases lt_trichotomy x.version y.version with h | h | h
  · rw [if_neg (not_lt.mpr h.le), if_pos h, if_neg]
    rw [hiff, not_or]
    exact ⟨not_lt.mpr h.le, fun heq => h.ne' heq.1⟩
  · rw [if_neg (not_lt.mpr h.le), if_neg (not_lt.mpr h.ge)]
    by_cases hnode : x.nodeId ≤ y.nodeId
    · rw [if_pos hnode, if_pos (hiff.mpr (.inr ⟨h.symm, hnode⟩))]
    · rw [if_neg hnode, if_neg]
      rw [hiff, not_or]
      exact ⟨not_lt.mpr h.le, fun heq => hnode heq.2⟩
  · rw [if_pos h, if_pos (hiff.mpr (.inl h))]

/-- Both strategies choose by rank, and the local entry of two of one rank. -/
theorem resolveConflict_eq (strategy : ConflictStrategy) (x y : Option CacheEntry) :
    resolveConflict x y strategy = pick (rank? strategy) x y := by
  cases x with
  | none =>
      cases y with
      | none => exact pick_self.symm
      | some y => exact (pick_of_lt (WithBot.bot_lt_coe _)).symm
  | some x =>
      cases y with
      | none =>
          have hle : rank? strategy none ≤ rank? strategy (some x) := bot_le
          exact (pick_of_le hle).symm
      | some y =>
          have hpick : pick (rank? strategy) (some x) (some y) =
              some (pick (rank strategy) x y) := by
            simp only [pick, rank?, WithBot.coe_le_coe]
            split <;> rfl
          rw [hpick]
          cases strategy with
          | lastWriteWins => rw [← pickLatestByTimestamp_eq]; rfl
          | voting => rw [← pickByVoting_eq]; rfl

theorem resolveConflict_choice {x y : Option CacheEntry} {strategy : ConflictStrategy} :
    resolveConflict x y strategy = x ∨ resolveConflict x y strategy = y := by
  rw [resolveConflict_eq]
  exact pick_choice

theorem resolveConflict_eq_none {x y : Option CacheEntry} {strategy : ConflictStrategy} :
    resolveConflict x y strategy = none ↔ x = none ∧ y = none := by
  cases x <;> cases y <;> cases strategy <;> simp [resolveConflict]

/-! ## The entries of a key -/

section Maps

variable {entries : EntryMap} {entry : CacheEntry} {key : String}

theorem key_of_get (h : entries.get key = some entry) : entry.key = key := by
  have := List.find?_some h
  simpa using this

/-- The winner of two entries of a key is one of the key. -/
theorem key_of_winner {localSnapshot remoteEntries : EntryMap} {strategy : ConflictStrategy}
    {resolved : CacheEntry}
    (h : resolveConflict (localSnapshot.get key) (remoteEntries.get key) strategy =
      some resolved) : resolved.key = key := by
  rcases resolveConflict_choice with hchoice | hchoice
  · exact key_of_get (hchoice.symm.trans h)
  · exact key_of_get (hchoice.symm.trans h)

theorem get_insert_self : (entries.insert entry).get entry.key = some entry := by
  simp [EntryMap.get, EntryMap.insert]

theorem get_insert_of_ne (h : key ≠ entry.key) : (entries.insert entry).get key = entries.get key := by
  have hne : ¬ entry.key = key := fun heq => h heq.symm
  simp only [EntryMap.get, EntryMap.insert, List.find?_cons, hne, decide_false, List.find?_filter]
  congr 1
  funext e
  rw [Bool.eq_iff_iff]
  simp only [decide_eq_true_eq, ne_eq, decide_not, Bool.not_eq_true',
    decide_eq_false_iff_not]
  exact ⟨fun he => he.2, fun he => ⟨he ▸ h, he⟩⟩

theorem get_eq_none_iff : entries.get key = none ↔ key ∉ entries.keys := by
  simp only [EntryMap.get, EntryMap.keys, List.find?_eq_none, List.mem_map, decide_eq_true_eq,
    not_exists, not_and]

end Maps

section Loop

variable (strategy : ConflictStrategy) {localSnapshot remoteEntries : EntryMap} (acc : Check)
  {key : String} {allKeys : List String}

variable {acc} in
theorem checkKey_self (hbackend : acc.backend.get key = remoteEntries.get key)
    (hlocal : acc.localCache.get key = localSnapshot.get key) :
    (checkKey strategy localSnapshot remoteEntries acc key).backend.get key =
        resolveConflict (localSnapshot.get key) (remoteEntries.get key) strategy ∧
      (checkKey strategy localSnapshot remoteEntries acc key).localCache.get key =
        resolveConflict (localSnapshot.get key) (remoteEntries.get key) strategy := by
  unfold checkKey entriesEqual
  simp only [decide_eq_true_eq]
  split
  · next heq =>
    rw [hbackend, hlocal, heq, resolveConflict_eq, pick_self]
    exact ⟨rfl, rfl⟩
  · next hne =>
    cases hwinner : resolveConflict (localSnapshot.get key) (remoteEntries.get key) strategy with
    | none =>
        obtain ⟨hlocalNone, hremoteNone⟩ := resolveConflict_eq_none.mp hwinner
        exact absurd (hlocalNone.trans hremoteNone.symm) hne
    | some resolved =>
        obtain rfl : resolved.key = key := key_of_winner hwinner
        exact ⟨get_insert_self, get_insert_self⟩

variable (localSnapshot remoteEntries) in
theorem checkKey_of_ne {key' : String} (hne : key' ≠ key) :
    (checkKey strategy localSnapshot remoteEntries acc key).backend.get key' =
        acc.backend.get key' ∧
      (checkKey strategy localSnapshot remoteEntries acc key).localCache.get key' =
        acc.localCache.get key' := by
  unfold checkKey
  dsimp only
  split
  · exact ⟨rfl, rfl⟩
  · split
    · next resolved hwinner =>
      have hkey : resolved.key = key := key_of_winner hwinner
      exact ⟨get_insert_of_ne (hkey ▸ hne), get_insert_of_ne (hkey ▸ hne)⟩
    · exact ⟨rfl, rfl⟩

/-- The loop writes the winner of every key it looks at, and of no other. -/
theorem foldl_checkKey (hnodup : allKeys.Nodup)
    (hbackend : ∀ key ∈ allKeys, acc.backend.get key = remoteEntries.get key)
    (hlocal : ∀ key ∈ allKeys, acc.localCache.get key = localSnapshot.get key) (key : String) :
    (allKeys.foldl (checkKey strategy localSnapshot remoteEntries) acc).backend.get key =
        (if key ∈ allKeys then
          resolveConflict (localSnapshot.get key) (remoteEntries.get key) strategy
        else acc.backend.get key) ∧
      (allKeys.foldl (checkKey strategy localSnapshot remoteEntries) acc).localCache.get key =
        (if key ∈ allKeys then
          resolveConflict (localSnapshot.get key) (remoteEntries.get key) strategy
        else acc.localCache.get key) := by
  induction allKeys generalizing acc with
  | nil => simp
  | cons first rest ih =>
      obtain ⟨hfirst, hrest⟩ := List.nodup_cons.mp hnodup
      have hother : ∀ k ∈ rest, k ≠ first := fun k hk heq => hfirst (heq ▸ hk)
      rw [List.foldl_cons]
      have hkept := fun k (hne : k ≠ first) =>
        checkKey_of_ne strategy localSnapshot remoteEntries acc hne
      have hih := ih (checkKey strategy localSnapshot remoteEntries acc first) hrest
        (fun k hk => (hkept k (hother k hk)).1.trans (hbackend k (List.mem_cons_of_mem _ hk)))
        (fun k hk => (hkept k (hother k hk)).2.trans (hlocal k (List.mem_cons_of_mem _ hk)))
      rcases eq_or_ne key first with rfl | hne
      · have hself := checkKey_self strategy (hbackend key List.mem_cons_self)
          (hlocal key List.mem_cons_self)
        rw [if_neg hfirst, if_neg hfirst] at hih
        rw [if_pos List.mem_cons_self, if_pos List.mem_cons_self]
        exact ⟨hih.1.trans hself.1, hih.2.trans hself.2⟩
      · have hmem : key ∈ first :: rest ↔ key ∈ rest := by
          rw [List.mem_cons]
          exact or_iff_right hne
        rw [(hkept key hne).1, (hkept key hne).2] at hih
        simp only [hmem]
        exact hih

/-- After a call both copies of every key are the winner. -/
theorem checkAndResolve_get {node : NodeCache} {backend : EntryMap}
    (hkeys : IsKeySet allKeys node.localCache backend) (key : String) :
    (checkAndResolve strategy node backend allKeys).2.2.get key =
        resolveConflict (node.localCache.get key) (backend.get key) strategy ∧
      (checkAndResolve strategy node backend allKeys).2.1.localCache.get key =
        resolveConflict (node.localCache.get key) (backend.get key) strategy := by
  have hloop := foldl_checkKey strategy ⟨backend, node.localCache, [], 0⟩ hkeys.nodup
    (fun _ _ => rfl) (fun _ _ => rfl) key
  by_cases hmem : key ∈ allKeys
  · rw [if_pos hmem, if_pos hmem] at hloop
    exact hloop
  · -- a key of neither map has no winner
    rw [if_neg hmem, if_neg hmem] at hloop
    rw [hkeys.mem_iff, not_or, ← get_eq_none_iff, ← get_eq_none_iff] at hmem
    rw [hmem.1, hmem.2] at hloop ⊢
    exact hloop

/-- The keys of two maps can be put in order. -/
theorem exists_isKeySet (localSnapshot remoteEntries : EntryMap) :
    ∃ allKeys, IsKeySet allKeys localSnapshot remoteEntries :=
  ⟨(localSnapshot.keys ++ remoteEntries.keys).dedup, List.nodup_dedup _, fun key => by
    rw [List.mem_dedup, List.mem_append]⟩

end Loop

/-! ## Clusters -/

/-- Nodes with one strategy over one backend. -/
structure Cluster (ι : Type) where
  strategy : ConflictStrategy
  backend : EntryMap
  nodes : ι → NodeCache

/-- The node `i` runs `check_and_resolve`. -/
def Checks {ι : Type} [DecidableEq ι] (c : Cluster ι) (i : ι) (c' : Cluster ι) : Prop :=
  ∃ allKeys, IsKeySet allKeys (c.nodes i).localCache c.backend ∧
    c' = { c with
      backend := (checkAndResolve c.strategy (c.nodes i) c.backend allKeys).2.2
      nodes := Function.update c.nodes i
        (checkAndResolve c.strategy (c.nodes i) c.backend allKeys).2.1 }

/-- The entries of a key: the backend's is the shared one. -/
def entriesOf {ι : Type} (c : Cluster ι) (key : String) : SharedRegister ι (Option CacheEntry) :=
  ⟨c.backend.get key, fun i => (c.nodes i).localCache.get key⟩

/-- Two rounds in any orders lead to one and the same entry of the key everywhere. -/
def Converges {ι : Type} [DecidableEq ι] (c : Cluster ι) (key : String) : Prop :=
  ∃ e, ∀ order order', IsRound order → IsRound order' →
    ∀ c', Run Checks c (order ++ order').reverse c' → (entriesOf c' key).AllHold e

section Rounds

variable {ι : Type} [DecidableEq ι] {c c' : Cluster ι} {i : ι} {order : List ι} {key : String}

theorem Checks.strategy_eq (h : Checks c i c') : c'.strategy = c.strategy := by
  obtain ⟨allKeys, -, rfl⟩ := h
  rfl

/-- A call synchronises the entries of every key. -/
theorem Checks.entriesOf (h : Checks c i c') :
    Consensus.entriesOf c' key = (Consensus.entriesOf c key).sync (rank? c.strategy) i := by
  obtain ⟨allKeys, hkeys, rfl⟩ := h
  obtain ⟨hbackend, hlocal⟩ := checkAndResolve_get c.strategy hkeys key
  rw [resolveConflict_eq] at hbackend hlocal
  unfold Consensus.entriesOf sync
  rw [hbackend]
  congr 1
  funext j
  rcases eq_or_ne j i with rfl | hne
  · simp only [Function.update_self]
    exact hlocal
  · simp only [Function.update_of_ne hne]

theorem exists_checks (c : Cluster ι) (i : ι) : ∃ c', Checks c i c' := by
  obtain ⟨allKeys, hkeys⟩ := exists_isKeySet (c.nodes i).localCache c.backend
  exact ⟨_, allKeys, hkeys, rfl⟩

theorem entriesOf_of_run (key : String) (h : Run Checks c order c') : c'.strategy = c.strategy ∧
    entriesOf c' key = (entriesOf c key).syncAll (rank? c.strategy) order.reverse := by
  induction h with
  | start => exact ⟨rfl, rfl⟩
  | next _ hk ih =>
      obtain ⟨hstrategy, hentries⟩ := ih
      refine ⟨hk.strategy_eq.trans hstrategy, ?_⟩
      rw [hk.entriesOf, hstrategy, hentries, List.reverse_cons, syncAll_append]
      rfl

theorem exists_run (c : Cluster ι) (order : List ι) : ∃ c', Run Checks c order c' := by
  induction order with
  | nil => exact ⟨c, .start⟩
  | cons i order ih =>
      obtain ⟨c', hc'⟩ := ih
      obtain ⟨c'', hc''⟩ := exists_checks c' i
      exact ⟨c'', .next hc' hc''⟩

theorem converges_iff_agrees : Converges c key ↔ Agrees (rank? c.strategy) (entriesOf c key) := by
  constructor
  · rintro ⟨e, he⟩
    refine ⟨e, fun order order' horder horder' => ?_⟩
    obtain ⟨c', hc'⟩ := exists_run c (order ++ order').reverse
    have hentries := (entriesOf_of_run key hc').2
    rw [List.reverse_reverse] at hentries
    rw [← hentries]
    exact he order order' horder horder' c' hc'
  · rintro ⟨e, he⟩
    refine ⟨e, fun order order' horder horder' c' hc' => ?_⟩
    have hentries := (entriesOf_of_run key hc').2
    rw [List.reverse_reverse] at hentries
    rw [hentries]
    exact he order order' horder horder'

end Rounds

/-! ## Convergence -/

/-- Two rounds converge exactly if the entries of the key leave no choice. The choice is
associative, and commutative but for different entries of one rank. -/
theorem nodes_converge {ι : Type} [Fintype ι] [DecidableEq ι] (c : Cluster ι) (key : String) :
    (Converges c key ↔ Decided (rank? c.strategy) (entriesOf c key)) ∧
    (∀ x y, resolveConflict x y c.strategy = resolveConflict y x c.strategy ↔
      (rank? c.strategy x = rank? c.strategy y → x = y)) ∧
    ∀ x y z, resolveConflict (resolveConflict x y c.strategy) z c.strategy =
      resolveConflict x (resolveConflict y z c.strategy) c.strategy := by
  refine ⟨converges_iff_agrees.trans agrees_iff, fun x y => ?_, fun x y z => ?_⟩
  · rw [resolveConflict_eq, resolveConflict_eq]
    exact pick_comm_iff
  · rw [resolveConflict_eq, resolveConflict_eq, resolveConflict_eq, resolveConflict_eq]
    exact pick_assoc

/-- An entry of the key `"vault-1"` and the time 5. -/
def sampleEntry (value nodeId : String) : CacheEntry := ⟨"vault-1", value, nodeId, 5, 0⟩

/-- Two nodes with different entries of one time keep them. -/
theorem nodes_diverge : ∃ c : Cluster (Fin 2), c.strategy = .lastWriteWins ∧
    ¬ Converges c "vault-1" := by
  refine ⟨⟨.lastWriteWins, [], fun i => if i = 0 then ⟨"a", [sampleEntry "x" "a"]⟩
    else ⟨"b", [sampleEntry "y" "b"]⟩⟩, rfl, fun h => ?_⟩
  obtain ⟨e, he⟩ := decided_of_agrees (converges_iff_agrees.mp h)
  rcases he with htop | ⟨hown, -⟩
  · have hx : some (sampleEntry "x" "a") = e := by
      refine htop.unique _ (.inr ⟨0, rfl⟩) (le_antisymm (htop.le _ (.inr ⟨0, rfl⟩)) ?_)
      rcases htop.holds with rfl | ⟨i, rfl⟩
      · exact bot_le
      · rcases Fin.exists_fin_two.mp ⟨i, rfl⟩ with rfl | rfl <;> exact le_rfl
    have hy : some (sampleEntry "y" "b") = e := by
      refine htop.unique _ (.inr ⟨1, rfl⟩) (le_antisymm (htop.le _ (.inr ⟨1, rfl⟩)) ?_)
      rw [← hx]
      exact le_rfl
    exact absurd (hx.trans hy.symm) (by decide)
  · exact absurd ((hown 0).trans (hown 1).symm) (by decide)

end Heirloom.Backend.Consensus
