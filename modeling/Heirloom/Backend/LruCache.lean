import Heirloom.Backend.MultilevelCache

/-!
# The maps of the first level

The first level has three maps, from vault ids to vaults, to remaining times and to summaries.
Its capacity is for each of them, but only the vaults are evicted, and also when the vault has
an entry already.

Results:
1. `lru_iff`: as long as a new remaining time or summary is set below the capacity only, a
   vault that is there already as well, and a new vault with a capacity of at least one, no map
   gets beyond the capacity and a set at capacity evicts the entry used least recently and no
   other; the first step that is different breaks this.
2. `unbounded_summaries`: a map that gets beyond the capacity.
-/

namespace Heirloom.Backend.MultilevelCache

open Runs

/-! ## Operations -/

variable {V S X : Type}

/-- The first level with all its maps. -/
structure L1Maps (V S : Type) extends L1Cache V where
  ttlRemaining : Vaults (Option Nat)
  summaries : Vaults S

def L1Stats.looked (stats : L1Stats) (hit : Bool) : L1Stats :=
  if hit then { stats with hits := stats.hits + 1 } else { stats with misses := stats.misses + 1 }

def L1Stats.inserted (stats : L1Stats) : L1Stats :=
  { stats with insertions := stats.insertions + 1 }

inductive L1Op (V S : Type)
  | getVault (vaultId : String)
  | setVault (vaultId : String) (vault : V) (ttl : Nat)
  | getTtlRemaining (vaultId : String)
  | setTtlRemaining (vaultId : String) (value : Option Nat) (ttl : Nat)
  | getSummary (vaultId : String)
  | setSummary (vaultId : String) (summary : S) (ttl : Nat)
  | invalidate (vaultId : String)
  | invalidateAll

namespace L1Maps

def new (maxEntries : Nat) : L1Maps V S := ⟨.new maxEntries, ∅, ∅⟩

def getVault (c : L1Maps V S) (now : Nat) (vaultId : String) : Option V × L1Maps V S :=
  let found := c.toL1Cache.getVault now vaultId
  (found.1, { c with toL1Cache := found.2 })

def setVault (c : L1Maps V S) (victim : Option String) (now : Nat) (vaultId : String) (vault : V)
    (ttl : Nat) : L1Maps V S :=
  { c with toL1Cache := c.toL1Cache.setVault victim now vaultId vault ttl }

def getTtlRemaining (c : L1Maps V S) (now : Nat) (vaultId : String) :
    Option (Option Nat) × L1Maps V S :=
  let found := c.ttlRemaining.get now vaultId
  (found.1, { c with
    ttlRemaining := found.2
    stats := c.stats.looked found.1.isSome })

def setTtlRemaining (c : L1Maps V S) (now : Nat) (vaultId : String) (value : Option Nat)
    (ttl : Nat) : L1Maps V S :=
  { c with
    ttlRemaining := c.ttlRemaining.insert vaultId (.new now value ttl)
    stats := c.stats.inserted }

def getSummary (c : L1Maps V S) (now : Nat) (vaultId : String) : Option S × L1Maps V S :=
  let found := c.summaries.get now vaultId
  (found.1, { c with
    summaries := found.2
    stats := c.stats.looked found.1.isSome })

def setSummary (c : L1Maps V S) (now : Nat) (vaultId : String) (summary : S) (ttl : Nat) :
    L1Maps V S :=
  { c with
    summaries := c.summaries.insert vaultId (.new now summary ttl)
    stats := c.stats.inserted }

def invalidate (c : L1Maps V S) (vaultId : String) : L1Maps V S :=
  { c with
    toL1Cache := c.toL1Cache.invalidate vaultId
    ttlRemaining := c.ttlRemaining.erase vaultId
    summaries := c.summaries.erase vaultId }

def invalidateAll (c : L1Maps V S) : L1Maps V S :=
  { c with
    vaults := ∅
    ttlRemaining := ∅
    summaries := ∅ }

/-- What an operation leaves; `victim` is the entry that an eviction would take. -/
def after (c : L1Maps V S) (victim : Option String) (now : Nat) : L1Op V S → L1Maps V S
  | .getVault vaultId => (c.getVault now vaultId).2
  | .setVault vaultId vault ttl => c.setVault victim now vaultId vault ttl
  | .getTtlRemaining vaultId => (c.getTtlRemaining now vaultId).2
  | .setTtlRemaining vaultId value ttl => c.setTtlRemaining now vaultId value ttl
  | .getSummary vaultId => (c.getSummary now vaultId).2
  | .setSummary vaultId summary ttl => c.setSummary now vaultId summary ttl
  | .invalidate vaultId => c.invalidate vaultId
  | .invalidateAll => c.invalidateAll

end L1Maps

/-- An operation at a time. -/
structure Access (V S : Type) where
  now : Nat
  victim : Option String
  op : L1Op V S

/-- The maps, and the time of the last operation. -/
structure Accessed (V S : Type) where
  cache : L1Maps V S
  clock : Nat

def Accessed.start (maxEntries : Nat) : Accessed V S := ⟨.new maxEntries, 0⟩

/-- The times of the operations increase. -/
def AccessStep (w : Accessed V S) (k : Access V S) (w' : Accessed V S) : Prop :=
  w.clock < k.now ∧ w.cache.Oldest k.victim ∧
    w' = ⟨w.cache.after k.victim k.now k.op, k.now⟩

/-! ## What an LRU cache does -/

/-- The time of the last operation on an id; the history is kept newest first. -/
def lastUse (uses : L1Op V S → Option String) : List (Access V S) → String → Nat
  | [], _ => 0
  | k :: ks, id => if uses k.op = some id then k.now else lastUse uses ks id

def L1Op.usesVault : L1Op V S → Option String
  | .getVault vaultId | .setVault vaultId _ _ => some vaultId
  | _ => none

def L1Op.usesTtlRemaining : L1Op V S → Option String
  | .getTtlRemaining vaultId | .setTtlRemaining vaultId _ _ => some vaultId
  | _ => none

def L1Op.usesSummary : L1Op V S → Option String
  | .getSummary vaultId | .setSummary vaultId _ _ => some vaultId
  | _ => none

def Vaults.size (m : Vaults X) : Nat := m.entries.length

/-- All ids but these have the same entries. -/
def Vaults.SameBut (m m' : Vaults X) (ids : List String) : Prop :=
  ∀ i ∉ ids, m'.lookup i = m.lookup i

/-- A set of an id evicts nothing if the id is there or the map is below its capacity, and
else the entry used least recently. The number of evictions goes from `n` to `n'`. -/
structure LruSet (capacity : Nat) (use : String → Nat) (id : String) (m m' : Vaults X)
    (n n' : Nat) : Prop where
  stored : id ∈ m'
  present : id ∈ m → n' = n ∧ m.SameBut m' [id]
  room : m.size < capacity → n' = n ∧ m.SameBut m' [id]
  full : id ∉ m → capacity ≤ m.size → n' = n + 1 ∧
    ∃ victim ∈ m, (∀ i ∈ m, i ≠ victim → use victim < use i) ∧ victim ∉ m' ∧
      m.SameBut m' [id, victim]

structure L1Maps.Bounded (c : L1Maps V S) : Prop where
  vaults : c.vaults.size ≤ c.maxEntries
  ttlRemaining : c.ttlRemaining.size ≤ c.maxEntries
  summaries : c.summaries.size ≤ c.maxEntries

/-- Sets are those of an LRU cache, and nothing else evicts. -/
def Respects (ks : List (Access V S)) (c c' : L1Maps V S) : L1Op V S → Prop
  | .setVault vaultId _ _ => LruSet c.maxEntries (lastUse L1Op.usesVault ks) vaultId
      c.vaults c'.vaults c.stats.evictions c'.stats.evictions
  | .setTtlRemaining vaultId _ _ => LruSet c.maxEntries (lastUse L1Op.usesTtlRemaining ks) vaultId
      c.ttlRemaining c'.ttlRemaining c.stats.evictions c'.stats.evictions
  | .setSummary vaultId _ _ => LruSet c.maxEntries (lastUse L1Op.usesSummary ks) vaultId
      c.summaries c'.summaries c.stats.evictions c'.stats.evictions
  | _ => c'.stats.evictions = c.stats.evictions

/-- When a set does what it should. -/
def L1Maps.Limits (c : L1Maps V S) : L1Op V S → Prop
  | .setVault vaultId _ _ =>
      if vaultId ∈ c.vaults then c.vaults.size < c.maxEntries else 0 < c.maxEntries
  | .setTtlRemaining vaultId _ _ => vaultId ∈ c.ttlRemaining ∨ c.ttlRemaining.size < c.maxEntries
  | .setSummary vaultId _ _ => vaultId ∈ c.summaries ∨ c.summaries.size < c.maxEntries
  | _ => True

def WithinLimits (w : Accessed V S) (k : Access V S) : Prop := w.cache.Limits k.op

/-! ## Maps -/

section Maps

variable {m m' : Vaults X} {id i : String} {entry : Entry X} {now : Nat} {use : String → Nat}
  {clock capacity n : Nat}

theorem size_eq (m : Vaults X) : m.size = m.keys.length := by
  simp [Vaults.size, AList.keys, List.keys]

theorem size_insert_of_mem (h : id ∈ m) : Vaults.size (m.insert id entry) = m.size := by
  rw [size_eq, size_eq, AList.keys_insert, List.length_cons, List.length_erase_of_mem h]
  exact Nat.sub_add_cancel (List.length_pos_of_mem h)

theorem size_insert_of_notMem (h : id ∉ m) : Vaults.size (m.insert id entry) = m.size + 1 := by
  rw [size_eq, size_eq, AList.keys_insert, List.length_cons,
    List.erase_of_not_mem (by rwa [← AList.mem_keys])]

theorem size_erase_of_mem (h : id ∈ m) : Vaults.size (m.erase id) + 1 = m.size := by
  rw [size_eq, size_eq, AList.keys_erase, List.length_erase_of_mem h]
  exact Nat.sub_add_cancel (List.length_pos_of_mem h)

theorem size_erase_le : Vaults.size (m.erase id) ≤ m.size := by
  rw [size_eq, size_eq, AList.keys_erase]
  exact List.length_erase_le

/-- A lookup never makes a map larger. -/
theorem size_get_le : Vaults.size (m.get now id).2 ≤ m.size := by
  unfold Vaults.get
  split
  · exact Nat.le_refl _
  · next entry hentry =>
      split
      · exact size_erase_le
      · exact Nat.le_of_eq (size_insert_of_mem (AList.lookup_isSome.mp (by simp [hentry])))

theorem sameBut_insert : m.SameBut (m.insert id entry) [id] :=
  fun i hi => AList.lookup_insert_ne (by simpa using hi)

/-- A set that does not evict, below the capacity or of an id that is there. -/
theorem insert_lru (h : id ∈ m ∨ m.size < capacity) (hm : m.size ≤ capacity) :
    LruSet capacity use id m (m.insert id entry) n n ∧
      Vaults.size (m.insert id entry) ≤ capacity := by
  refine ⟨⟨(AList.mem_insert m).mpr (.inl rfl), fun _ => ⟨rfl, sameBut_insert⟩,
    fun _ => ⟨rfl, sameBut_insert⟩, fun hnew hfull => ?_⟩, ?_⟩
  · rcases h with hmem | hlt
    · exact absurd hmem hnew
    · exact absurd hfull (Nat.not_le.mpr hlt)
  · by_cases hmem : id ∈ m
    · rw [size_insert_of_mem hmem]
      exact hm
    · rw [size_insert_of_notMem hmem]
      exact h.resolve_left hmem

theorem room_of_insert (h : Vaults.size (m.insert id entry) ≤ capacity) :
    id ∈ m ∨ m.size < capacity := by
  by_cases hmem : id ∈ m
  · exact .inl hmem
  · rw [size_insert_of_notMem hmem] at h
    exact .inr h

/-- The map has the times at which its ids have been used, all of them different. -/
structure Tracked (use : String → Nat) (clock : Nat) (m : Vaults X) : Prop where
  used : ∀ i entry, m.lookup i = some entry → entry.lastAccessed = use i
  le : ∀ i ∈ m, use i ≤ clock
  apart : ∀ i ∈ m, ∀ j ∈ m, use i = use j → i = j

theorem mem_of_lookup (h : m.lookup i = some entry) : i ∈ m :=
  AList.lookup_isSome.mp (by simp [h])

theorem Tracked.sublist (h : Tracked use clock m) (hclock : clock ≤ now)
    (hsub : ∀ i entry, m'.lookup i = some entry → m.lookup i = some entry) :
    Tracked use now m' := by
  have hmem (i : String) (hi : i ∈ m') : i ∈ m := by
    obtain ⟨entry, hentry⟩ := Option.isSome_iff_exists.mp (AList.lookup_isSome.mpr hi)
    exact mem_of_lookup (hsub i entry hentry)
  exact ⟨fun i entry hentry => h.used i entry (hsub i entry hentry),
    fun i hi => Nat.le_trans (h.le i (hmem i hi)) hclock,
    fun i hi j hj => h.apart i (hmem i hi) j (hmem j hj)⟩

theorem lookup_of_erase (i : String) (entry : Entry X)
    (h : (m.erase id).lookup i = some entry) : m.lookup i = some entry := by
  by_cases hi : i = id
  · subst hi
    simp at h
  · rwa [AList.lookup_erase_ne hi] at h

/-- The id is used at a later time. -/
theorem Tracked.insert {use' : String → Nat} (h : Tracked use clock m) (hclock : clock < now)
    (hentry : entry.lastAccessed = now) (hid : use' id = now)
    (hothers : ∀ i ≠ id, use' i = use i) : Tracked use' now (m.insert id entry) := by
  have hold (i : String) (hi : i ∈ AList.insert id entry m) (hne : i ≠ id) : i ∈ m :=
    ((AList.mem_insert m).mp hi).resolve_left hne
  have hbelow (i : String) (hi : i ∈ AList.insert id entry m) (hne : i ≠ id) : use' i < now := by
    rw [hothers i hne]
    exact Nat.lt_of_le_of_lt (h.le i (hold i hi hne)) hclock
  refine ⟨fun i e he => ?_, fun i hi => ?_, fun i hi j hj heq => ?_⟩
  · by_cases hi : i = id
    · subst hi
      rw [AList.lookup_insert] at he
      cases he
      exact hentry.trans hid.symm
    · rw [AList.lookup_insert_ne hi] at he
      exact (h.used i e he).trans (hothers i hi).symm
  · by_cases hne : i = id
    · exact Nat.le_of_eq (hne ▸ hid)
    · exact Nat.le_of_lt (hbelow i hi hne)
  · by_cases hne : i = id <;> by_cases hne' : j = id
    · exact hne.trans hne'.symm
    · have hlt := hbelow j hj hne'
      rw [← heq, hne, hid] at hlt
      exact absurd hlt (Nat.lt_irrefl _)
    · have hlt := hbelow i hi hne
      rw [heq, hne', hid] at hlt
      exact absurd hlt (Nat.lt_irrefl _)
    · rw [hothers i hne, hothers j hne'] at heq
      exact h.apart i (hold i hi hne) j (hold j hj hne') heq

theorem Tracked.congr {use' : String → Nat} (h : Tracked use clock m)
    (huse : ∀ i ∈ m, use' i = use i) : Tracked use' clock m := by
  refine ⟨fun i e he => ?_, fun i hi => ?_, fun i hi j hj heq => ?_⟩
  · rw [huse i (mem_of_lookup he)]
    exact h.used i e he
  · rw [huse i hi]
    exact h.le i hi
  · rw [huse i hi, huse j hj] at heq
    exact h.apart i hi j hj heq

theorem Tracked.get {use' : String → Nat} (h : Tracked use clock m) (hclock : clock < now)
    (hid : use' id = now) (hothers : ∀ i ≠ id, use' i = use i) :
    Tracked use' now (m.get now id).2 := by
  unfold Vaults.get
  split
  · next hnone =>
      refine (h.sublist (Nat.le_of_lt hclock) fun _ _ h => h).congr fun i hi => hothers i ?_
      rintro rfl
      exact AList.lookup_eq_none.mp hnone hi
  · next entry hentry =>
      split
      · refine (h.sublist (Nat.le_of_lt hclock) lookup_of_erase).congr fun i hi => hothers i ?_
        exact (AList.mem_erase.mp hi).1
      · exact h.insert hclock rfl hid hothers

end Maps

/-! ## Vaults -/

section Vaults

variable {c : L1Cache V} {victim : Option String} {oldestKey id i : String} {v : V}
  {now ttl clock : Nat} {use : String → Nat} {entry : Entry V}

theorem oldest_some (h : c.Oldest (some oldestKey)) :
    ∃ entry, c.vaults.lookup oldestKey = some entry ∧
      ∀ i e, c.vaults.lookup i = some e → entry.lastAccessed ≤ e.lastAccessed := by
  obtain ⟨entry, hentry, hall⟩ := Option.any_eq_true _ _ |>.mp h
  refine ⟨entry, hentry, fun i e he => ?_⟩
  have hmem : (⟨i, e⟩ : Sigma fun _ : String => Entry V) ∈ c.vaults.entries :=
    AList.mem_lookup_iff.mp he
  exact of_decide_eq_true (List.all_eq_true.mp hall _ hmem)

theorem exists_oldest (h : c.Oldest victim) (hpos : 0 < c.vaults.size) :
    ∃ oldestKey, victim = some oldestKey := by
  cases victim with
  | none =>
      have hnil : c.vaults.entries = [] := h
      simp [Vaults.size, hnil] at hpos
  | some oldestKey => exact ⟨oldestKey, rfl⟩

theorem size_pos_of_mem (h : id ∈ c.vaults) : 0 < c.vaults.size := by
  rw [size_eq]
  exact List.length_pos_of_mem h

theorem maybeEvict_room (h : c.vaults.size < c.maxEntries) : c.maybeEvict victim = c := by
  unfold L1Cache.maybeEvict
  exact if_neg (Nat.not_le.mpr h)

theorem maybeEvict_full (h : c.maxEntries ≤ c.vaults.size) :
    c.maybeEvict (some oldestKey) = { c with
      vaults := c.vaults.erase oldestKey
      stats := { c.stats with evictions := c.stats.evictions + 1 } } := by
  unfold L1Cache.maybeEvict
  exact if_pos h

theorem maybeEvict_lookup (i : String) (entry : Entry V)
    (h : (c.maybeEvict victim).vaults.lookup i = some entry) : c.vaults.lookup i = some entry := by
  unfold L1Cache.maybeEvict at h
  split at h
  · cases victim with
    | none => exact h
    | some oldestKey => exact lookup_of_erase i entry h
  · exact h

theorem setVault_maxEntries :
    (c.setVault victim now id v ttl).maxEntries = c.maxEntries := by
  unfold L1Cache.setVault L1Cache.maybeEvict
  dsimp only
  split
  · cases victim <;> rfl
  · rfl

theorem getVault_evictions : (c.getVault now id).2.stats.evictions = c.stats.evictions := by
  unfold L1Cache.getVault
  dsimp only
  split <;> rfl

theorem looked_evictions (stats : L1Stats) (hit : Bool) :
    (stats.looked hit).evictions = stats.evictions := by
  unfold L1Stats.looked
  split <;> rfl

/-- The least recently used vault makes room. -/
theorem setVault_full (ht : Tracked use clock c.vaults) (hold : c.Oldest (some oldestKey))
    (hnew : id ∉ c.vaults) (hfull : c.maxEntries ≤ c.vaults.size)
    (hm : c.vaults.size ≤ c.maxEntries) :
    LruSet c.maxEntries use id c.vaults (c.setVault (some oldestKey) now id v ttl).vaults
        c.stats.evictions (c.setVault (some oldestKey) now id v ttl).stats.evictions ∧
      (c.setVault (some oldestKey) now id v ttl).vaults.size ≤ c.maxEntries := by
  obtain ⟨entry, hentry, hleast⟩ := oldest_some hold
  have hmem := mem_of_lookup hentry
  have hne : oldestKey ≠ id := by
    rintro rfl
    exact hnew hmem
  have hgone : id ∉ c.vaults.erase oldestKey := fun h => hnew (AList.mem_erase.mp h).2
  unfold L1Cache.setVault
  rw [maybeEvict_full hfull]
  refine ⟨⟨(AList.mem_insert _).mpr (.inl rfl), fun h => absurd h hnew,
    fun h => absurd hfull (Nat.not_le.mpr h), fun _ _ => ⟨rfl, oldestKey, hmem, ?_, ?_, ?_⟩⟩, ?_⟩
  · intro i hi hi'
    obtain ⟨e, he⟩ := Option.isSome_iff_exists.mp (AList.lookup_isSome.mpr hi)
    have hle := hleast i e he
    rw [ht.used _ _ hentry, ht.used _ _ he] at hle
    exact Nat.lt_of_le_of_ne hle fun heq => hi' (ht.apart i hi oldestKey hmem heq.symm)
  · rw [AList.mem_insert, not_or]
    exact ⟨hne, fun h => (AList.mem_erase.mp h).1 rfl⟩
  · intro i hi
    rw [List.mem_cons, List.mem_singleton, not_or] at hi
    rw [AList.lookup_insert_ne hi.1, AList.lookup_erase_ne hi.2]
  · rw [size_insert_of_notMem hgone, size_erase_of_mem hmem]
    exact hm

theorem setVault_lru (hm : c.vaults.size ≤ c.maxEntries) (ht : Tracked use clock c.vaults)
    (hold : c.Oldest victim)
    (hlimit : if id ∈ c.vaults then c.vaults.size < c.maxEntries else 0 < c.maxEntries) :
    LruSet c.maxEntries use id c.vaults (c.setVault victim now id v ttl).vaults
        c.stats.evictions (c.setVault victim now id v ttl).stats.evictions ∧
      (c.setVault victim now id v ttl).vaults.size ≤ c.maxEntries := by
  rcases Nat.lt_or_ge c.vaults.size c.maxEntries with hroom | hfull
  · unfold L1Cache.setVault
    rw [maybeEvict_room hroom]
    exact insert_lru (.inr hroom) hm
  · split at hlimit
    · exact absurd hfull (Nat.not_le.mpr hlimit)
    · next hnew =>
      obtain ⟨oldestKey, rfl⟩ := exists_oldest hold (Nat.lt_of_lt_of_le hlimit hfull)
      exact setVault_full ht hold hnew hfull hm

/-- A set at capacity of a vault that is there is counted as an eviction, and one with no
capacity at all leaves a vault. -/
theorem limit_of_lru (hold : c.Oldest victim)
    (h : LruSet c.maxEntries use id c.vaults (c.setVault victim now id v ttl).vaults
      c.stats.evictions (c.setVault victim now id v ttl).stats.evictions)
    (hsize : (c.setVault victim now id v ttl).vaults.size ≤ c.maxEntries) :
    if id ∈ c.vaults then c.vaults.size < c.maxEntries else 0 < c.maxEntries := by
  split
  · next hmem =>
    rcases Nat.lt_or_ge c.vaults.size c.maxEntries with hroom | hfull
    · exact hroom
    · obtain ⟨oldestKey, rfl⟩ := exists_oldest hold (size_pos_of_mem hmem)
      have hevictions := (h.present hmem).1
      unfold L1Cache.setVault at hevictions
      rw [maybeEvict_full hfull] at hevictions
      exact absurd hevictions (Nat.succ_ne_self _)
  · exact Nat.lt_of_lt_of_le (size_pos_of_mem (c := c.setVault victim now id v ttl) h.stored) hsize

theorem Tracked.setVault {use' : String → Nat} (h : Tracked use clock c.vaults)
    (hclock : clock < now) (hid : use' id = now) (hothers : ∀ i ≠ id, use' i = use i) :
    Tracked use' now (c.setVault victim now id v ttl).vaults :=
  Tracked.insert (h.sublist (Nat.le_refl _) maybeEvict_lookup) hclock rfl hid hothers

end Vaults

/-! ## Runs -/

section Runs

variable {ks : List (Access V S)} {w w' : Accessed V S} {k : Access V S} {capacity : Nat}

/-- The maps are bounded, and the vaults have the times of their last uses. -/
structure Kept (ks : List (Access V S)) (w : Accessed V S) : Prop where
  bounded : w.cache.Bounded
  tracked : Tracked (lastUse L1Op.usesVault ks) w.clock w.cache.vaults

theorem lastUse_self {uses : L1Op V S → Option String} {id : String} (h : uses k.op = some id) :
    lastUse uses (k :: ks) id = k.now :=
  if_pos h

theorem lastUse_of_ne {uses : L1Op V S → Option String} {i : String} (h : uses k.op ≠ some i) :
    lastUse uses (k :: ks) i = lastUse uses ks i :=
  if_neg h

theorem Kept.tracked_next (h : Kept ks w) (hk : AccessStep w k w') :
    Tracked (lastUse L1Op.usesVault (k :: ks)) w'.clock w'.cache.vaults := by
  obtain ⟨hclock, -, rfl⟩ := hk
  obtain ⟨now, victim, op⟩ := k
  have hquiet (huse : op.usesVault = none) :
      Tracked (lastUse L1Op.usesVault (⟨now, victim, op⟩ :: ks)) now w.cache.vaults := by
    refine (h.tracked.sublist (Nat.le_of_lt hclock) fun _ _ h => h).congr fun i _ => ?_
    exact lastUse_of_ne (by simp [huse])
  have hothers {id : String} (huse : op.usesVault = some id) (i : String) (hi : i ≠ id) :
      lastUse L1Op.usesVault (⟨now, victim, op⟩ :: ks) i = lastUse L1Op.usesVault ks i :=
    lastUse_of_ne (by simpa [huse] using hi.symm)
  cases op with
  | getVault id => exact h.tracked.get hclock (lastUse_self rfl) (hothers rfl)
  | setVault id v ttl => exact h.tracked.setVault hclock (lastUse_self rfl) (hothers rfl)
  | invalidate id => exact (hquiet rfl).sublist (Nat.le_refl _) lookup_of_erase
  | invalidateAll =>
      refine (hquiet rfl).sublist (Nat.le_refl _) fun i e he => ?_
      rw [show (w.cache.after victim now .invalidateAll).vaults = ∅ from rfl] at he
      simp at he
  | _ => exact hquiet rfl

/-- A step keeps the bounds and does what an LRU cache does exactly if it is within limits. -/
theorem Kept.step_iff (h : Kept ks w) (hk : AccessStep w k w') :
    w'.cache.Bounded ∧ Respects ks w.cache w'.cache k.op ↔ WithinLimits w k := by
  obtain ⟨-, hold, rfl⟩ := hk
  obtain ⟨now, victim, op⟩ := k
  obtain ⟨hvaults, httl, hsummaries⟩ := h.bounded
  cases op with
  | getVault id =>
      exact ⟨fun _ => trivial, fun _ =>
        ⟨⟨Nat.le_trans size_get_le hvaults, httl, hsummaries⟩, getVault_evictions⟩⟩
  | setVault id v ttl =>
      have hmax : (w.cache.after victim now (.setVault id v ttl)).maxEntries =
          w.cache.maxEntries := setVault_maxEntries
      constructor
      · rintro ⟨⟨hsize, -, -⟩, hlru⟩
        exact limit_of_lru hold hlru (hmax ▸ hsize)
      · intro hlimit
        obtain ⟨hlru, hsize⟩ := setVault_lru hvaults h.tracked hold hlimit
        exact ⟨⟨hmax ▸ hsize, hmax ▸ httl, hmax ▸ hsummaries⟩, hlru⟩
  | getTtlRemaining id =>
      exact ⟨fun _ => trivial, fun _ =>
        ⟨⟨hvaults, Nat.le_trans size_get_le httl, hsummaries⟩, looked_evictions _ _⟩⟩
  | setTtlRemaining id value ttl =>
      refine ⟨fun ⟨hbounded, _⟩ => room_of_insert hbounded.ttlRemaining, fun hlimit => ?_⟩
      obtain ⟨hlru, hsize⟩ := insert_lru hlimit httl
      exact ⟨⟨hvaults, hsize, hsummaries⟩, hlru⟩
  | getSummary id =>
      exact ⟨fun _ => trivial, fun _ =>
        ⟨⟨hvaults, httl, Nat.le_trans size_get_le hsummaries⟩, looked_evictions _ _⟩⟩
  | setSummary id summary ttl =>
      refine ⟨fun ⟨hbounded, _⟩ => room_of_insert hbounded.summaries, fun hlimit => ?_⟩
      obtain ⟨hlru, hsize⟩ := insert_lru hlimit hsummaries
      exact ⟨⟨hvaults, httl, hsize⟩, hlru⟩
  | invalidate id =>
      exact ⟨fun _ => trivial, fun _ => ⟨⟨Nat.le_trans size_erase_le hvaults,
        Nat.le_trans size_erase_le httl, Nat.le_trans size_erase_le hsummaries⟩, rfl⟩⟩
  | invalidateAll =>
      exact ⟨fun _ => trivial, fun _ => ⟨⟨Nat.zero_le _, Nat.zero_le _, Nat.zero_le _⟩, rfl⟩⟩

theorem kept_start (capacity : Nat) : Kept [] (Accessed.start capacity : Accessed V S) := by
  refine ⟨⟨Nat.zero_le _, Nat.zero_le _, Nat.zero_le _⟩, fun i e he => ?_, fun i hi => ?_,
    fun i hi => ?_⟩
  · rw [show (Accessed.start capacity : Accessed V S).cache.vaults = ∅ from rfl] at he
    simp at he
  · exact absurd hi (AList.notMem_empty i)
  · exact absurd hi (AList.notMem_empty i)

theorem after_maxEntries {c : L1Maps V S} {victim : Option String} {now : Nat} (op : L1Op V S) :
    (c.after victim now op).maxEntries = c.maxEntries := by
  cases op with
  | setVault => exact setVault_maxEntries
  | _ => rfl

theorem run_maxEntries (h : Run AccessStep (.start capacity) ks w) :
    w.cache.maxEntries = capacity := by
  refine h.invariant (I := fun w => w.cache.maxEntries = capacity) rfl ?_
  rintro w k - hw ⟨-, -, rfl⟩
  exact (after_maxEntries k.op).trans hw

theorem run_kept
    (h : Run (Guarded AccessStep WithinLimits) (.start capacity) ks w) : Kept ks w :=
  h.invariantHistory (I := Kept) (kept_start capacity) fun _ _ _ _ hkept hk =>
    ⟨((hkept.step_iff hk.1).mpr hk.2).1, hkept.tracked_next hk.1⟩

/-- No map gets beyond the capacity, and a set at capacity evicts the entry used least
recently and no other, exactly as long as all sets are within limits. -/
theorem lru_iff
    (h : Run (Guarded AccessStep WithinLimits) (.start capacity) ks w)
    (hk : AccessStep w k w') :
    w.cache.maxEntries = capacity ∧ w.cache.Bounded ∧
      (w'.cache.Bounded ∧ Respects ks w.cache w'.cache k.op ↔ WithinLimits w k) :=
  ⟨run_maxEntries h.unguard, (run_kept h).bounded, (run_kept h).step_iff hk⟩

/-- A capacity of two and two vaults, of which the first has been read last. -/
def twoVaults : Accessed Nat Nat :=
  ⟨(((Accessed.start 2).cache.after none 1 (.setVault "a" 7 60)).after (some "a") 2
    (.setVault "b" 8 60)).after (some "a") 3 (.getVault "a"), 3⟩

/-- The vault that was set last makes room for another one. -/
theorem lru_evicts : ∃ (ks : List (Access Nat Nat)) (w' : Accessed Nat Nat) (k : Access Nat Nat),
    Run (Guarded AccessStep WithinLimits) (.start 2) ks twoVaults ∧
    AccessStep twoVaults k w' ∧ Respects ks twoVaults.cache w'.cache k.op ∧
    twoVaults.cache.vaults.keys = ["a", "b"] ∧ w'.cache.vaults.keys = ["c", "a"] := by
  have h : Run (Guarded AccessStep WithinLimits) (.start 2)
      [⟨3, some "a", .getVault "a"⟩, ⟨2, some "a", .setVault "b" 8 60⟩,
        ⟨1, none, .setVault "a" 7 60⟩] twoVaults :=
    .next (.next (.next .start ⟨⟨by decide, by decide, rfl⟩, Nat.two_pos⟩)
      ⟨⟨by decide, by decide, rfl⟩, Nat.two_pos⟩) ⟨⟨by decide, by decide, rfl⟩, trivial⟩
  have hk : AccessStep twoVaults ⟨4, some "b", .setVault "c" 9 60⟩
      ⟨twoVaults.cache.after (some "b") 4 (.setVault "c" 9 60), 4⟩ :=
    ⟨by decide, by decide, rfl⟩
  exact ⟨_, _, _, h, hk, ((lru_iff h hk).2.2.mpr Nat.two_pos).2, by decide, by decide⟩

/-! ## Summaries without bound -/

def summaryId (n : Nat) : String := String.ofList (List.replicate n 'v')

theorem summaryId_inj {n n' : Nat} (h : summaryId n = summaryId n') : n = n' := by
  have hlist := congrArg (fun s => s.toList.length) h
  simpa [summaryId] using hlist

/-- Any number of summaries may be set. -/
theorem summaries_grow (capacity n : Nat) (summary : S) :
    ∃ (ks : List (Access V S)) (w : Accessed V S), Run AccessStep (.start capacity) ks w ∧
      w.cache.summaries.size = n ∧ w.cache.vaults = ∅ ∧
      ∀ i ∈ w.cache.summaries, ∃ n' < n, i = summaryId n' := by
  induction n with
  | zero => exact ⟨[], _, .start, rfl, rfl, fun i hi => absurd hi (AList.notMem_empty i)⟩
  | succ n ih =>
      obtain ⟨ks, w, hrun, hsize, hvaults, hids⟩ := ih
      have hold : w.cache.Oldest none := by
        show w.cache.vaults.entries = []
        rw [hvaults]
        rfl
      have hnew : summaryId n ∉ w.cache.summaries := by
        intro hmem
        obtain ⟨n', hlt, heq⟩ := hids _ hmem
        exact absurd (summaryId_inj heq) (Nat.ne_of_gt hlt)
      let op : L1Op V S := .setSummary (summaryId n) summary 60
      refine ⟨⟨w.clock + 1, none, op⟩ :: ks, ⟨w.cache.after none (w.clock + 1) op, w.clock + 1⟩,
        .next hrun ⟨Nat.lt_succ_self _, hold, rfl⟩, ?_, hvaults, fun i hi => ?_⟩
      · exact (size_insert_of_notMem hnew).trans (congrArg (· + 1) hsize)
      · rcases (AList.mem_insert _).mp hi with rfl | hi
        · exact ⟨n, Nat.lt_succ_self n, rfl⟩
        · obtain ⟨n', hlt, rfl⟩ := hids i hi
          exact ⟨n', Nat.lt_succ_of_lt hlt, rfl⟩

/-- The first level may hold more summaries than its capacity. -/
theorem unbounded_summaries : ∃ (ks : List (Access Nat Nat)) (w : Accessed Nat Nat),
    Run AccessStep (.start l1MaxEntries) ks w ∧ w.cache.maxEntries = l1MaxEntries ∧
    w.cache.summaries.size = l1MaxEntries + 1 ∧ ¬ w.cache.Bounded := by
  obtain ⟨ks, w, hrun, hsize, -, -⟩ := summaries_grow (V := Nat) l1MaxEntries (l1MaxEntries + 1) 0
  have hmax := run_maxEntries hrun
  refine ⟨ks, w, hrun, hmax, hsize, fun hbounded => ?_⟩
  have hle := hbounded.summaries
  rw [hsize, hmax] at hle
  exact absurd hle (Nat.not_succ_le_self _)

end Runs

end Heirloom.Backend.MultilevelCache
