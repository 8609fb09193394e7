import Mathlib.Data.Fintype.EquivFin
import Mathlib.Data.List.AList
import Mathlib.Data.List.Perm.Subperm
import Heirloom.Lib.LittleEndian
import Heirloom.Lib.Runs

/-!
# The vault cache

For each vault the cache keeps up to three values as JSON: the vault, its remaining time and its
summary. A value from a threshold on is put into a deflate block that stores it as it is. An
entry is served until it expires or becomes stale; writing to a full cache evicts a vault.

Results:
1. `stored_block_iff`: what `decompress` accepts, and what it makes of a compressed value. The
   length goes into two bytes, so a value of 64 KiB or more comes back cut off.
2. `hit_is_last_set`: in every run a hit is the value that was set last, not invalidated since
   and younger than the longest time to live, which is the configured one unless it is tuned.
3. `cached_vaults_le`: in every run no more vaults have values than the capacity allows. Records
   whose values have all expired are never evicted: there may be any number.
4. `invalidates_iff`: a remote version is compared as a count of writes. It says nothing about
   which write came later.
-/

namespace Heirloom.Backend.VaultCache

open Runs

abbrev Bytes := List UInt8

/-! ## Stored blocks -/

/-- `u16::from_le_bytes`. -/
def fromLeBytes (b₀ b₁ : UInt8) : UInt16 := UInt16.ofNat (LittleEndian.value [b₀, b₁])

/-- A header byte, the length, its complement and the data. -/
def compress (data : Bytes) : Bytes :=
  let len := UInt16.ofNat data.length
  let nlen := ~~~len
  0x01 :: (LittleEndian.encode 2 len.toNat ++ LittleEndian.encode 2 nlen.toNat ++ data)

def decompress : Bytes → Option Bytes
  | _ :: l₀ :: l₁ :: n₀ :: n₁ :: rest =>
      let len := fromLeBytes l₀ l₁
      let nlen := fromLeBytes n₀ n₁
      if len ≠ ~~~nlen then none
      else if rest.length < len.toNat then none
      else some (rest.take len.toNat)
  | _ => none

section Blocks

variable {n : UInt16} {data block : Bytes}

theorem encode_two (m : Nat) :
    LittleEndian.encode 2 m = [UInt8.ofNat m, UInt8.ofNat (m / 256)] := by
  simp [LittleEndian.encode, List.range_succ]

theorem fromLeBytes_encode :
    fromLeBytes (UInt8.ofNat n.toNat) (UInt8.ofNat (n.toNat / 256)) = n := by
  have hlt := n.toNat_lt
  have hvalue : LittleEndian.value (LittleEndian.encode 2 n.toNat) = n.toNat := by
    rw [LittleEndian.value_encode]
    omega
  rw [encode_two] at hvalue
  unfold fromLeBytes
  rw [hvalue, UInt16.ofNat_toNat]

/-- Two bytes are those of the number they give. -/
theorem encode_fromLeBytes (b₀ b₁ : UInt8) :
    LittleEndian.encode 2 (fromLeBytes b₀ b₁).toNat = [b₀, b₁] := by
  have h₀ := b₀.toNat_lt
  have h₁ := b₁.toNat_lt
  have hvalue : LittleEndian.value [b₀, b₁] = b₀.toNat + 256 * b₁.toNat := by
    simp [LittleEndian.value]
  have hnat : (fromLeBytes b₀ b₁).toNat = b₀.toNat + 256 * b₁.toNat := by
    unfold fromLeBytes
    rw [hvalue, UInt16.toNat_ofNat']
    omega
  rw [encode_two, hnat]
  congr 1
  · refine UInt8.toNat_inj.mp ?_
    rw [UInt8.toNat_ofNat']
    omega
  · congr 1
    refine UInt8.toNat_inj.mp ?_
    rw [UInt8.toNat_ofNat']
    omega

theorem compress_eq (data : Bytes) : compress data =
    0x01 :: (LittleEndian.encode 2 (UInt16.ofNat data.length).toNat ++
      LittleEndian.encode 2 (~~~UInt16.ofNat data.length).toNat ++ data) := rfl

theorem toNat_length : (UInt16.ofNat data.length).toNat = data.length % 65536 :=
  UInt16.toNat_ofNat'

/-- A compressed value comes back up to its length modulo 64 KiB. -/
theorem decompress_compress :
    decompress (compress data) = some (data.take (data.length % 65536)) := by
  have hmod : data.length % 65536 ≤ data.length := Nat.mod_le _ _
  simp only [compress_eq, encode_two, List.cons_append, List.nil_append, decompress,
    fromLeBytes_encode]
  rw [toNat_length, if_neg (by simp), if_neg (by omega)]

/-- A block is accepted if it is a compressed value of less than 64 KiB, but for the first byte and
what comes after it; and compressing is undone up to the length modulo 64 KiB. -/
theorem stored_block_iff (block data : Bytes) :
    (decompress block = some data ↔ data.length < 65536 ∧
      ∃ header rest, block = header :: ((compress data).tail ++ rest)) ∧
    decompress (compress data) = some (data.take (data.length % 65536)) := by
  refine ⟨⟨fun h => ?_, ?_⟩, decompress_compress⟩
  · unfold decompress at h
    split at h
    · next header l₀ l₁ n₀ n₁ rest =>
        dsimp only at h
        split at h
        · cases h
        next hcomplement =>
        split at h
        · cases h
        next hlong =>
        have hlt := (fromLeBytes l₀ l₁).toNat_lt
        obtain rfl := Option.some.inj h
        have hlength :
            (rest.take (fromLeBytes l₀ l₁).toNat).length = (fromLeBytes l₀ l₁).toNat := by
          rw [List.length_take]
          omega
        refine ⟨by omega, header, rest.drop (fromLeBytes l₀ l₁).toNat, ?_⟩
        have hnlen : ~~~fromLeBytes l₀ l₁ = fromLeBytes n₀ n₁ := by
          rw [not_not.mp hcomplement, UInt16.not_not]
        rw [compress_eq, hlength, UInt16.ofNat_toNat, hnlen, encode_fromLeBytes,
          encode_fromLeBytes]
        simp
    · cases h
  · rintro ⟨hlt, header, rest, rfl⟩
    have hmod : data.length % 65536 = data.length := Nat.mod_eq_of_lt hlt
    simp only [compress_eq, encode_two, List.cons_append, List.nil_append, List.tail_cons,
      decompress, fromLeBytes_encode]
    rw [toNat_length, hmod, if_neg (by simp), if_neg (by simp), List.take_left]

end Blocks

/-! ## Entries -/

/-- Which of its values is kept for a vault. -/
inductive Slot
  | vault
  | ttlRemaining
  | summary
deriving DecidableEq

/-- How the values are written as JSON, and read. -/
structure Codec (Value : Slot → Type) where
  toVec : (slot : Slot) → Value slot → Bytes
  fromSlice : (slot : Slot) → Bytes → Option (Value slot)

/-- What is computed in floating point. -/
structure Floats (R : Type) where
  clamp : R → R
  mulF64 : Nat → R → Nat
  /-- Of these hits and misses at least 0.8 are hits. -/
  manyHits : Nat → Nat → Bool
  /-- Less than 0.5 are. -/
  fewHits : Nat → Nat → Bool

inductive MaybeCompressed
  | raw (bytes : Bytes)
  | compressed (bytes : Bytes)
deriving DecidableEq

structure CacheMetrics where
  hits : Nat
  misses : Nat
  evictions : Nat
  staleBypasses : Nat
  compressedEntries : Nat
  decompressions : Nat
deriving DecidableEq

/-- Times are in nanoseconds. -/
structure CacheEntry where
  value : MaybeCompressed
  insertedAt : Nat
  ttl : Nat
  version : Nat
deriving DecidableEq

structure VaultCacheEntries where
  vault : Option CacheEntry
  ttlRemaining : Option CacheEntry
  summary : Option CacheEntry

structure CacheConfig (R : Type) where
  ttl : Nat
  maxEntries : Nat
  compressionThreshold : Nat
  stalenessRatio : R

structure CacheInner (R : Type) where
  map : AList fun _ : String => VaultCacheEntries
  config : CacheConfig R
  metrics : CacheMetrics
  globalVersion : Nat

inductive CachedLookup
  | hit (value : MaybeCompressed)
  | expired
  | stale
  | miss

structure CoherenceToken where
  vaultId : String
  version : Nat

variable {Value : Slot → Type} {R : Type}

def MaybeCompressed.encode (raw : Bytes) (threshold : Nat) : MaybeCompressed :=
  if threshold ≤ raw.length then .compressed (compress raw) else .raw raw

def MaybeCompressed.decode (J : Codec Value) (slot : Slot) : MaybeCompressed → Option (Value slot)
  | .raw b => J.fromSlice slot b
  | .compressed b => (decompress b).bind (J.fromSlice slot)

def CacheMetrics.encoded (metrics : CacheMetrics) : MaybeCompressed → CacheMetrics
  | .raw _ => metrics
  | .compressed _ => { metrics with compressedEntries := metrics.compressedEntries + 1 }

def CacheMetrics.decoded (metrics : CacheMetrics) : MaybeCompressed → CacheMetrics
  | .raw _ => metrics
  | .compressed _ => { metrics with decompressions := metrics.decompressions + 1 }

namespace CacheEntry

def age (entry : CacheEntry) (now : Nat) : Nat := now - entry.insertedAt

def isExpired (entry : CacheEntry) (now : Nat) : Bool := decide (entry.ttl ≤ entry.age now)

def isStale (F : Floats R) (ratio : R) (entry : CacheEntry) (now : Nat) : Bool :=
  decide (F.mulF64 entry.ttl (F.clamp ratio) ≤ entry.age now)

end CacheEntry

/-- What a read finds in a slot, and what it leaves there. -/
def classifySlot (F : Floats R) (ratio : R) (now : Nat) :
    Option CacheEntry → CachedLookup × Option CacheEntry
  | none => (.miss, none)
  | some entry =>
      if entry.isExpired now then (.expired, none)
      else if entry.isStale F ratio now then (.stale, some entry)
      else (.hit entry.value, some entry)

namespace VaultCacheEntries

def new : VaultCacheEntries := ⟨none, none, none⟩

def slot (x : VaultCacheEntries) : Slot → Option CacheEntry
  | .vault => x.vault
  | .ttlRemaining => x.ttlRemaining
  | .summary => x.summary

def withSlot (x : VaultCacheEntries) (o : Option CacheEntry) : Slot → VaultCacheEntries
  | .vault => { x with vault := o }
  | .ttlRemaining => { x with ttlRemaining := o }
  | .summary => { x with summary := o }

/-- The age of the oldest entry, if there is one. -/
def oldestAge (x : VaultCacheEntries) (now : Nat) : Option Nat :=
  ([x.vault, x.ttlRemaining, x.summary].filterMap fun o => o.map (CacheEntry.age · now)).max?

end VaultCacheEntries

/-! ## Operations -/

def minTtlSecs : Nat := 30

def maxTtlSecs : Nat := 3600

def nanosPerSec : Nat := 1000000000

namespace CacheInner

def new (config : CacheConfig R) : CacheInner R := ⟨∅, config, ⟨0, 0, 0, 0, 0, 0⟩, 0⟩

/-- `max_by_key` may find this vault: no other has an older entry. -/
def Oldest (c : CacheInner R) (now : Nat) : Option String → Prop
  | none => ∀ p ∈ c.map.entries, p.2.oldestAge now = none
  | some victim => (c.map.lookup victim).any (fun x => (x.oldestAge now).any fun age =>
      c.map.entries.all fun p => (p.2.oldestAge now).all fun a => decide (a ≤ age)) = true

def evictIfNeeded (c : CacheInner R) (victim : Option String) : CacheInner R :=
  if c.map.entries.length < c.config.maxEntries then c
  else
    match victim with
    | some id => { c with
        map := c.map.erase id
        metrics := { c.metrics with evictions := c.metrics.evictions + 1 } }
    | none => c

def get (J : Codec Value) (F : Floats R) (c : CacheInner R) (slot : Slot) (now : Nat)
    (vaultId : String) : Option (Value slot) × CacheInner R :=
  match c.map.lookup vaultId with
  | none => (none, { c with metrics := { c.metrics with misses := c.metrics.misses + 1 } })
  | some x =>
      let found := classifySlot F c.config.stalenessRatio now (x.slot slot)
      let map := c.map.insert vaultId (x.withSlot found.2 slot)
      match found.1 with
      | .hit encoded => (encoded.decode J slot, { c with
          map := map
          metrics := { c.metrics with hits := c.metrics.hits + 1 }.decoded encoded })
      | .stale => (none, { c with
          map := map
          metrics := { c.metrics with
            staleBypasses := c.metrics.staleBypasses + 1
            misses := c.metrics.misses + 1 } })
      | .expired | .miss => (none, { c with
          map := map
          metrics := { c.metrics with misses := c.metrics.misses + 1 } })

def set (J : Codec Value) (c : CacheInner R) (slot : Slot) (victim : Option String) (now : Nat)
    (vaultId : String) (value : Value slot) : CacheInner R :=
  let c := c.evictIfNeeded victim
  let version := c.globalVersion + 1
  let encoded := MaybeCompressed.encode (J.toVec slot value) c.config.compressionThreshold
  let x := (c.map.lookup vaultId).getD .new
  { c with
    map := c.map.insert vaultId (x.withSlot (some ⟨encoded, now, c.config.ttl, version⟩) slot)
    metrics := c.metrics.encoded encoded
    globalVersion := version }

def getVault (J : Codec Value) (F : Floats R) (c : CacheInner R) (now : Nat) (vaultId : String) :
    Option (Value .vault) × CacheInner R :=
  c.get J F .vault now vaultId

def setVault (J : Codec Value) (c : CacheInner R) (victim : Option String) (now : Nat)
    (vaultId : String) (vault : Value .vault) : CacheInner R :=
  c.set J .vault victim now vaultId vault

def getTtlRemaining (J : Codec Value) (F : Floats R) (c : CacheInner R) (now : Nat)
    (vaultId : String) : Option (Value .ttlRemaining) × CacheInner R :=
  c.get J F .ttlRemaining now vaultId

def setTtlRemaining (J : Codec Value) (c : CacheInner R) (victim : Option String) (now : Nat)
    (vaultId : String) (ttlRemaining : Value .ttlRemaining) : CacheInner R :=
  c.set J .ttlRemaining victim now vaultId ttlRemaining

def getVaultSummary (J : Codec Value) (F : Floats R) (c : CacheInner R) (now : Nat)
    (vaultId : String) : Option (Value .summary) × CacheInner R :=
  c.get J F .summary now vaultId

def setVaultSummary (J : Codec Value) (c : CacheInner R) (victim : Option String) (now : Nat)
    (vaultId : String) (summary : Value .summary) : CacheInner R :=
  c.set J .summary victim now vaultId summary

def invalidate (c : CacheInner R) (vaultId : String) : CacheInner R :=
  { c with map := c.map.erase vaultId }

def invalidateAll (c : CacheInner R) : CacheInner R := { c with map := ∅ }

def getCoherenceToken (c : CacheInner R) (vaultId : String) : Option CoherenceToken :=
  (c.map.lookup vaultId).bind fun x => x.vault.map fun entry => ⟨vaultId, entry.version⟩

/-- Without a value of the vault itself the local version counts as 0. -/
def invalidateIfOlder (c : CacheInner R) (vaultId : String) (remoteVersion : Nat) :
    Bool × CacheInner R :=
  match c.map.lookup vaultId with
  | none => (false, c)
  | some x =>
      let localVersion := (x.vault.map (·.version)).getD 0
      if localVersion ≤ remoteVersion then (true, c.invalidate vaultId) else (false, c)

/-- The time to live is kept in whole seconds from then on. -/
def autoTune (F : Floats R) (c : CacheInner R) : CacheInner R :=
  let currentSecs := c.config.ttl / nanosPerSec
  let newSecs :=
    if F.manyHits c.metrics.hits c.metrics.misses then
      min (currentSecs + currentSecs / 5) maxTtlSecs
    else if F.fewHits c.metrics.hits c.metrics.misses then
      max (currentSecs - currentSecs / 5) minTtlSecs
    else currentSecs
  { c with config := { c.config with ttl := newSecs * nanosPerSec } }

def setStalenessRatio (F : Floats R) (c : CacheInner R) (ratio : R) : CacheInner R :=
  { c with config := { c.config with stalenessRatio := F.clamp ratio } }

def setCompressionThreshold (c : CacheInner R) (threshold : Nat) : CacheInner R :=
  { c with config := { c.config with compressionThreshold := threshold } }

end CacheInner

/-! ## Runs -/

inductive Op (Value : Slot → Type) (R : Type)
  | get (slot : Slot) (vaultId : String)
  | set (slot : Slot) (vaultId : String) (value : Value slot)
  | invalidate (vaultId : String)
  | invalidateAll
  | invalidateIfOlder (vaultId : String) (remoteVersion : Nat)
  | autoTune
  | setStalenessRatio (ratio : R)
  | setCompressionThreshold (threshold : Nat)

/-- An operation at a time, with the vault that an eviction would take. -/
structure Access (Value : Slot → Type) (R : Type) where
  now : Nat
  victim : Option String
  op : Op Value R

/-- What the operation leaves. -/
def CacheInner.after (J : Codec Value) (F : Floats R) (c : CacheInner R) (k : Access Value R) :
    CacheInner R :=
  match k.op with
  | .get slot vaultId => (c.get J F slot k.now vaultId).2
  | .set slot vaultId value => c.set J slot k.victim k.now vaultId value
  | .invalidate vaultId => c.invalidate vaultId
  | .invalidateAll => c.invalidateAll
  | .invalidateIfOlder vaultId remoteVersion => (c.invalidateIfOlder vaultId remoteVersion).2
  | .autoTune => c.autoTune F
  | .setStalenessRatio ratio => c.setStalenessRatio F ratio
  | .setCompressionThreshold threshold => c.setCompressionThreshold threshold

/-- The cache and the time of the last operation. -/
structure World (R : Type) where
  cache : CacheInner R
  clock : Nat

def start (config : CacheConfig R) : World R := ⟨.new config, 0⟩

/-- The lock lets one operation in at a time. -/
def Step (J : Codec Value) (F : Floats R) (w : World R) (k : Access Value R) (w' : World R) :
    Prop :=
  w.clock ≤ k.now ∧ w.cache.Oldest k.now k.victim ∧ w' = ⟨w.cache.after J F k, k.now⟩

/-! ## What has been set -/

/-- A value, when it was set, and how many had been set by then. -/
structure Write (X : Type) where
  value : X
  time : Nat
  number : Nat

/-- How many values have been set. -/
def writes : List (Access Value R) → Nat
  | [] => 0
  | k :: ks =>
      match k.op with
      | .set _ _ _ => writes ks + 1
      | _ => writes ks

/-- The cache after a history. -/
def cacheOf (J : Codec Value) (F : Floats R) (config : CacheConfig R) :
    List (Access Value R) → CacheInner R
  | [] => .new config
  | k :: ks => (cacheOf J F config ks).after J F k

/-- What a slot was set to last, unless it has been invalidated since or the record of its vault
was dropped at a message that it is out of date. -/
def lastSet (J : Codec Value) (F : Floats R) (config : CacheConfig R) (slot : Slot) (id : String) :
    List (Access Value R) → Option (Write (Value slot))
  | [] => none
  | k :: ks =>
      match k.op with
      | .set slot' vaultId value =>
          if h : slot' = slot ∧ vaultId = id then some ⟨h.1 ▸ value, k.now, writes ks + 1⟩
          else lastSet J F config slot id ks
      | .invalidate vaultId => if vaultId = id then none else lastSet J F config slot id ks
      | .invalidateAll => none
      | .invalidateIfOlder vaultId remoteVersion =>
          if vaultId = id ∧
              ((cacheOf J F config ks).invalidateIfOlder vaultId remoteVersion).1 = true then none
          else lastSet J F config slot id ks
      | _ => lastSet J F config slot id ks

section Steps

variable {J : Codec Value} {F : Floats R} {config : CacheConfig R} {c c' : CacheInner R}
  {id i : String} {slot slot' : Slot} {x y : VaultCacheEntries} {entry : CacheEntry}
  {o : Option CacheEntry} {now bound : Nat}
  {victim : Option String} {k : Access Value R} {ks : List (Access Value R)}

theorem slot_withSlot :
    (x.withSlot o slot).slot slot' = if slot' = slot then o else x.slot slot' := by
  cases slot <;> cases slot' <;> rfl

theorem slot_new : VaultCacheEntries.new.slot slot = none := by
  cases slot <;> rfl

/-- What a slot keeps for vault `id`. -/
def CacheInner.Has (c : CacheInner R) (id : String) (slot : Slot) (entry : CacheEntry) : Prop :=
  ∃ x, c.map.lookup id = some x ∧ x.slot slot = some entry

/-- A vault is cached if one of its slots is. -/
def CacheInner.Cached (c : CacheInner R) (id : String) : Prop := ∃ slot entry, c.Has id slot entry

/-- All that is in `c'` has been in `c`. -/
def CacheInner.Within (c' c : CacheInner R) : Prop :=
  ∀ id slot entry, c'.Has id slot entry → c.Has id slot entry

theorem CacheInner.Within.of_map (h : c'.map = c.map) : c'.Within c := by
  intro id slot entry hhas
  unfold CacheInner.Has at hhas ⊢
  rwa [h] at hhas

theorem CacheInner.within_erase {metrics : CacheMetrics} :
    ({ c with map := c.map.erase i, metrics := metrics } : CacheInner R).Within c := by
  rintro id slot entry ⟨x, hx, hentry⟩
  rcases eq_or_ne id i with rfl | hne
  · simp at hx
  · exact ⟨x, by rwa [AList.lookup_erase_ne hne] at hx, hentry⟩

theorem CacheInner.within_evictIfNeeded : (c.evictIfNeeded victim).Within c := by
  unfold CacheInner.evictIfNeeded
  split
  · exact .of_map rfl
  · split
    · exact within_erase
    · exact .of_map rfl

theorem classifySlot_left {ratio : R} (h : (classifySlot F ratio now o).2 = some entry) :
    o = some entry := by
  unfold classifySlot at h
  split at h
  · cases h
  · split at h
    · cases h
    · split at h
      · exact h
      · exact h

/-- A read clears a slot or leaves it. -/
theorem CacheInner.within_get : (c.get J F slot now i).2.Within c := by
  unfold CacheInner.get
  split
  · exact .of_map rfl
  next x hx =>
  -- hits and misses differ in what they count only
  have hread : ∀ {metrics : CacheMetrics}, ({ c with
      map := c.map.insert i (x.withSlot (classifySlot F c.config.stalenessRatio now (x.slot slot)).2
        slot)
      metrics := metrics } : CacheInner R).Within c := by
    rintro metrics id slot' entry ⟨y, hy, hentry⟩
    rcases eq_or_ne id i with rfl | hne
    · rw [AList.lookup_insert, Option.some.injEq] at hy
      subst hy
      rw [slot_withSlot] at hentry
      split at hentry
      · next heq =>
          subst heq
          exact ⟨x, hx, classifySlot_left hentry⟩
      · exact ⟨x, hx, hentry⟩
    · exact ⟨y, by rwa [AList.lookup_insert_ne hne] at hy, hentry⟩
  dsimp only
  split <;> exact hread

theorem CacheInner.within_invalidateIfOlder {n : Nat} : (c.invalidateIfOlder i n).2.Within c := by
  unfold CacheInner.invalidateIfOlder
  split
  · exact .of_map rfl
  · dsimp only
    split
    · exact within_erase
    · exact .of_map rfl

theorem CacheInner.has_set {value : Value slot}
    (h : (c.set J slot victim now i value).Has id slot' entry) :
    id = i ∧ slot' = slot ∧ entry = ⟨.encode (J.toVec slot value) c.config.compressionThreshold,
      now, c.config.ttl, c.globalVersion + 1⟩ ∨
    (id ≠ i ∨ slot' ≠ slot) ∧ (c.evictIfNeeded victim).Has id slot' entry := by
  have hconfig : (c.evictIfNeeded victim).config = c.config := by
    unfold CacheInner.evictIfNeeded
    split
    · rfl
    · split <;> rfl
  have hversion : (c.evictIfNeeded victim).globalVersion = c.globalVersion := by
    unfold CacheInner.evictIfNeeded
    split
    · rfl
    · split <;> rfl
  obtain ⟨x, hx, hentry⟩ := h
  simp only [CacheInner.set, hconfig, hversion] at hx
  rcases eq_or_ne id i with rfl | hne
  · rw [AList.lookup_insert, Option.some.injEq] at hx
    subst hx
    rw [slot_withSlot] at hentry
    split at hentry
    · next heq => exact .inl ⟨rfl, heq, (Option.some.inj hentry).symm⟩
    · next hslot =>
        refine .inr ⟨.inr hslot, ?_⟩
        cases hold : (c.evictIfNeeded victim).map.lookup id with
        | none => simp [hold, slot_new] at hentry
        | some y => exact ⟨y, hold, by simpa [hold] using hentry⟩
  · exact .inr ⟨.inl hne, x, by rwa [AList.lookup_insert_ne hne] at hx, hentry⟩

/-! ## The books -/

/-- The entry is what the write has left. -/
structure CacheEntry.Keeps (J : Codec Value) (bound : Nat) (slot : Slot) (entry : CacheEntry)
    (write : Write (Value slot)) : Prop where
  value : ∃ threshold, entry.value = .encode (J.toVec slot write.value) threshold
  insertedAt : entry.insertedAt = write.time
  version : entry.version = write.number
  ttl : entry.ttl ≤ bound

/-- Every entry goes back to the last write of its slot. -/
structure Books (J : Codec Value) (F : Floats R) (config : CacheConfig R) (bound : Nat)
    (ks : List (Access Value R)) (c : CacheInner R) : Prop where
  cache : c = cacheOf J F config ks
  entries : ∀ id slot entry, c.Has id slot entry →
    ∃ write, lastSet J F config slot id ks = some write ∧ entry.Keeps J bound slot write
  ttl : c.config.ttl ≤ bound
  version : c.globalVersion = writes ks

/-- An operation that sets nothing and leaves what has been set last of what it leaves. -/
theorem Books.within (h : Books J F config bound ks c) (hwithin : (c.after J F k).Within c)
    (hlast : ∀ id slot entry, (c.after J F k).Has id slot entry →
      lastSet J F config slot id (k :: ks) = lastSet J F config slot id ks)
    (httl : (c.after J F k).config.ttl ≤ bound)
    (hversion : (c.after J F k).globalVersion = writes (k :: ks)) :
    Books J F config bound (k :: ks) (c.after J F k) := by
  refine ⟨congrArg (CacheInner.after J F · k) h.cache, fun id slot entry hhas => ?_, httl,
    hversion⟩
  rw [hlast id slot entry hhas]
  exact h.entries id slot entry (hwithin id slot entry hhas)

theorem get_config : (c.get J F slot now i).2.config = c.config := by
  unfold CacheInner.get
  split
  · rfl
  · dsimp only
    split <;> rfl

theorem get_globalVersion : (c.get J F slot now i).2.globalVersion = c.globalVersion := by
  unfold CacheInner.get
  split
  · rfl
  · dsimp only
    split <;> rfl

theorem set_config {value : Value slot} : (c.set J slot victim now i value).config = c.config := by
  unfold CacheInner.set CacheInner.evictIfNeeded
  dsimp only
  split
  · rfl
  · split <;> rfl

theorem set_globalVersion {value : Value slot} :
    (c.set J slot victim now i value).globalVersion = c.globalVersion + 1 := by
  unfold CacheInner.set CacheInner.evictIfNeeded
  dsimp only
  split
  · rfl
  · split <;> rfl

theorem autoTune_ttl (hbound : maxTtlSecs * nanosPerSec ≤ bound) (h : c.config.ttl ≤ bound) :
    (c.autoTune F).config.ttl ≤ bound := by
  have hsecs : c.config.ttl / nanosPerSec * nanosPerSec ≤ bound :=
    le_trans (Nat.div_mul_le_self _ _) h
  have hmin : minTtlSecs * nanosPerSec ≤ bound := le_trans (by decide) hbound
  unfold CacheInner.autoTune
  dsimp only
  split
  · exact le_trans (Nat.mul_le_mul_right _ (min_le_right _ _)) hbound
  · split
    · rcases le_total (c.config.ttl / nanosPerSec - c.config.ttl / nanosPerSec / 5)
        minTtlSecs with hle | hle
      · rwa [max_eq_right hle]
      · rw [max_eq_left hle]
        exact le_trans (Nat.mul_le_mul_right _ (Nat.sub_le _ _)) hsecs
    · exact hsecs

theorem invalidateIfOlder_config {n : Nat} : (c.invalidateIfOlder i n).2.config = c.config ∧
    (c.invalidateIfOlder i n).2.globalVersion = c.globalVersion := by
  unfold CacheInner.invalidateIfOlder
  split
  · exact ⟨rfl, rfl⟩
  · dsimp only
    split <;> exact ⟨rfl, rfl⟩

theorem invalidateIfOlder_dropped {n : Nat} (h : (c.invalidateIfOlder i n).1 = true) :
    (c.invalidateIfOlder i n).2 = c.invalidate i := by
  unfold CacheInner.invalidateIfOlder at h ⊢
  split
  · simp_all
  · dsimp only
    split <;> simp_all

theorem Books.after (hbound : k.op = .autoTune → maxTtlSecs * nanosPerSec ≤ bound)
    (h : Books J F config bound ks c) : Books J F config bound (k :: ks) (c.after J F k) := by
  obtain ⟨now, victim, op⟩ := k
  cases op with
  | get slot i =>
      refine h.within CacheInner.within_get (fun _ _ _ _ => rfl) ?_
        (get_globalVersion.trans h.version)
      show (c.get J F slot now i).2.config.ttl ≤ bound
      rw [get_config]
      exact h.ttl
  | set slot i value =>
      refine ⟨congrArg (CacheInner.after J F · _) h.cache, fun id slot' entry hhas => ?_, ?_, ?_⟩
      · rcases CacheInner.has_set hhas with ⟨rfl, rfl, rfl⟩ | ⟨hne, hold⟩
        · refine ⟨⟨value, now, writes ks + 1⟩, dif_pos ⟨rfl, rfl⟩, ⟨_, rfl⟩, rfl, ?_, h.ttl⟩
          exact congrArg (· + 1) h.version
        · -- the entry is another one, which eviction has left
          have hlast : lastSet J F config slot' id (⟨now, victim, .set slot i value⟩ :: ks) =
              lastSet J F config slot' id ks := dif_neg fun heq =>
            hne.elim (fun hid => hid heq.2.symm) fun hslot => hslot heq.1.symm
          rw [hlast]
          exact h.entries id slot' entry (CacheInner.within_evictIfNeeded id slot' entry hold)
      · show (c.set J slot victim now i value).config.ttl ≤ bound
        rw [set_config]
        exact h.ttl
      · exact set_globalVersion.trans (congrArg (· + 1) h.version)
  | invalidate i =>
      refine h.within CacheInner.within_erase (fun id slot entry hhas => if_neg ?_) h.ttl h.version
      rintro rfl
      obtain ⟨x, hx, -⟩ := hhas
      simp [CacheInner.after, CacheInner.invalidate] at hx
  | invalidateAll =>
      refine ⟨congrArg (CacheInner.after J F · _) h.cache, fun id slot entry hhas => ?_, h.ttl,
        h.version⟩
      obtain ⟨x, hx, -⟩ := hhas
      simp [CacheInner.after, CacheInner.invalidateAll] at hx
  | invalidateIfOlder i n =>
      obtain ⟨hconfig, hversion⟩ := @invalidateIfOlder_config _ c i n
      refine h.within CacheInner.within_invalidateIfOlder (fun id slot entry hhas => if_neg ?_)
        (hconfig ▸ h.ttl) (hversion.trans h.version)
      rintro ⟨rfl, hdropped⟩
      rw [← h.cache] at hdropped
      obtain ⟨x, hx, -⟩ : (c.invalidate i).Has i slot entry :=
        invalidateIfOlder_dropped hdropped ▸ hhas
      simp [CacheInner.invalidate] at hx
  | autoTune =>
      exact h.within (.of_map rfl) (fun _ _ _ _ => rfl) (autoTune_ttl (hbound rfl) h.ttl) h.version
  | setStalenessRatio ratio =>
      exact h.within (.of_map rfl) (fun _ _ _ _ => rfl) h.ttl h.version
  | setCompressionThreshold n =>
      exact h.within (.of_map rfl) (fun _ _ _ _ => rfl) h.ttl h.version

end Steps

/-! ## Hits -/

section Hits

variable {J : Codec Value} {F : Floats R} {config : CacheConfig R} {w : World R}
  {ks : List (Access Value R)} {id : String} {slot : Slot} {now : Nat} {v : Value slot}
  {entry : CacheEntry}

/-- The books hold with every bound on the configured time to live, and on the longest one there
is if it is tuned. -/
theorem books_of_run {bound : Nat} (h : Run (Step J F) (start config) ks w)
    (hconfig : config.ttl ≤ bound)
    (htuned : ∀ k ∈ ks, k.op = .autoTune → maxTtlSecs * nanosPerSec ≤ bound) :
    Books J F config bound ks w.cache := by
  refine h.invariantHistory (I := fun ks w =>
    (∀ k ∈ ks, k.op = .autoTune → maxTtlSecs * nanosPerSec ≤ bound) →
      Books J F config bound ks w.cache) (fun _ => ?_) ?_ htuned
  · refine ⟨rfl, fun id slot entry hhas => ?_, hconfig, rfl⟩
    obtain ⟨x, hx, -⟩ := hhas
    simp [start, CacheInner.new] at hx
  · rintro ks w k w' hbooks ⟨-, -, rfl⟩ htuned
    exact (hbooks fun k hk => htuned k (List.mem_cons_of_mem _ hk)).after
      (htuned k List.mem_cons_self)

/-- The formats of the values: what was written is read back, and nothing can be read from a
value that has been cut off. -/
structure Codec.Sound (J : Codec Value) : Prop where
  roundTrip : ∀ slot v, J.fromSlice slot (J.toVec slot v) = some v
  cut : ∀ slot v n, n < (J.toVec slot v).length → 65536 ≤ (J.toVec slot v).length →
    J.fromSlice slot ((J.toVec slot v).take n) = none

/-- What is decoded is what was encoded. -/
theorem decode_encode (hJ : J.Sound) {u v : Value slot} {threshold : Nat}
    (h : (MaybeCompressed.encode (J.toVec slot u) threshold).decode J slot = some v) : v = u := by
  unfold MaybeCompressed.encode at h
  split at h
  · simp only [MaybeCompressed.decode, decompress_compress, Option.bind_some] at h
    rcases Nat.lt_or_ge (J.toVec slot u).length 65536 with hlt | hge
    · rw [Nat.mod_eq_of_lt hlt, List.take_length, hJ.roundTrip, Option.some.injEq] at h
      exact h.symm
    · -- a value of 64 KiB or more has been cut off, and is not read
      rw [hJ.cut slot u _ (by omega) hge] at h
      cases h
  · rw [MaybeCompressed.decode, hJ.roundTrip, Option.some.injEq] at h
    exact h.symm

/-- A hit finds an entry that has not expired. -/
theorem get_hit {c : CacheInner R} (h : (c.get J F slot now id).1 = some v) :
    ∃ entry, c.Has id slot entry ∧ entry.isExpired now = false ∧
      entry.isStale F c.config.stalenessRatio now = false ∧ entry.value.decode J slot = some v := by
  unfold CacheInner.get at h
  split at h
  · cases h
  next x hx =>
  cases hentry : x.slot slot with
  | none => simp [hentry, classifySlot] at h
  | some entry =>
      cases hexpired : entry.isExpired now with
      | true => simp [hentry, classifySlot, hexpired] at h
      | false =>
          cases hstale : entry.isStale F c.config.stalenessRatio now with
          | true => simp [hentry, classifySlot, hexpired, hstale] at h
          | false => exact ⟨entry, ⟨x, hx, hentry⟩, hexpired, hstale, by
              simpa [hentry, classifySlot, hexpired, hstale] using h⟩

/-- In every run, a hit is the value that its slot was set to last; it has not been invalidated
since, nor has its record been dropped as out of date, and it is younger than the longest time to
live there can be, in a run without tuning than the configured one. -/
theorem hit_is_last_set (hJ : J.Sound) (hrun : Run (Step J F) (start config) ks w)
    (hhit : (w.cache.get J F slot now id).1 = some v) :
    ∃ write, lastSet J F config slot id ks = some write ∧ write.value = v ∧
      now - write.time < max config.ttl (maxTtlSecs * nanosPerSec) ∧
      ((∀ k ∈ ks, k.op ≠ .autoTune) → now - write.time < config.ttl) := by
  obtain ⟨entry, hhas, hfresh, -, hdecode⟩ := get_hit hhit
  have hage : entry.age now < entry.ttl := by
    simpa [CacheEntry.isExpired] using hfresh
  have hbooks : Books J F config (max config.ttl (maxTtlSecs * nanosPerSec)) ks w.cache :=
    books_of_run hrun (le_max_left _ _) fun _ _ _ => le_max_right _ _
  obtain ⟨write, hlast, hkeeps⟩ := hbooks.entries id slot entry hhas
  obtain ⟨threshold, hvalue⟩ := hkeeps.value
  rw [hvalue] at hdecode
  refine ⟨write, hlast, (decode_encode hJ hdecode).symm, ?_⟩
  rw [← hkeeps.insertedAt]
  refine ⟨lt_of_lt_of_le hage hkeeps.ttl, fun huntuned => ?_⟩
  have hbooks' := books_of_run hrun (le_refl config.ttl) fun k hk h => absurd h (huntuned k hk)
  obtain ⟨_, -, hkeeps'⟩ := hbooks'.entries id slot entry hhas
  exact lt_of_lt_of_le hage hkeeps'.ttl

/-- The JSON of no time and of times of one digit. -/
def digits : Codec fun _ => Option (Fin 10) :=
  let text : Option (Fin 10) → Bytes := fun v =>
    v.elim [110, 117, 108, 108] fun d => [UInt8.ofNat (48 + d)]
  ⟨fun _ => text, fun _ b => (none :: (List.finRange 10).map some).find? (text · = b)⟩

def percent : Floats Nat where
  clamp r := min r 100
  mulF64 ttl r := ttl * r / 100
  manyHits hits misses := decide (0 < hits + misses ∧ 80 * (hits + misses) ≤ 100 * hits)
  fewHits hits misses := decide (hits + misses = 0 ∨ 2 * hits < hits + misses)

theorem digits_length (slot : Slot) (v : Option (Fin 10)) : (digits.toVec slot v).length ≤ 4 := by
  cases slot <;> cases v <;> exact Nat.le_of_ble_eq_true rfl

theorem digits_sound : digits.Sound where
  roundTrip slot v := by
    cases slot <;> cases v <;> decide +revert +kernel
  cut slot v n _ hlong := by
    have hshort : (digits.toVec slot v).length ≤ 4 := digits_length slot v
    omega

/-- There is room for one vault. -/
def small : CacheConfig Nat := ⟨300 * nanosPerSec, 1, 1024, 90⟩

/-- Vault "1" is dropped as out of date, and cached again with seven seconds left. -/
def sevenLeft : List (Access (fun _ => Option (Fin 10)) Nat) :=
  [⟨7, none, .set .ttlRemaining "1" (some 7)⟩, ⟨6, some "1", .invalidateIfOlder "1" 3⟩,
    ⟨5, none, .set .ttlRemaining "1" (some 9)⟩]

theorem run_seven : Run (Step digits percent) (start small) sevenLeft
    ⟨cacheOf digits percent small sevenLeft, 7⟩ :=
  .next (.next (.next .start ⟨Nat.zero_le _, fun _ hp => absurd hp List.not_mem_nil, rfl⟩)
    ⟨by decide, by show Option.any _ _ = true; decide +kernel, rfl⟩)
    ⟨by decide, fun _ hp => absurd hp List.not_mem_nil, rfl⟩

theorem hit_is_last_set_seven :
    ∃ write, lastSet digits percent small .ttlRemaining "1" sevenLeft = some write ∧
      write.value = some 7 ∧ 10 - write.time < 300 * nanosPerSec := by
  have hhit : ((cacheOf digits percent small sevenLeft).get digits percent .ttlRemaining 10 "1").1 =
      some (some 7) := by decide +kernel
  obtain ⟨write, hlast, hvalue, -, hage⟩ := hit_is_last_set digits_sound run_seven hhit
  exact ⟨write, hlast, hvalue, hage (by simp [sevenLeft])⟩

end Hits

/-! ## Capacity -/

section Capacity

variable {J : Codec Value} {F : Floats R} {config : CacheConfig R} {w : World R}
  {c c' : CacheInner R} {k : Access Value R} {ks : List (Access Value R)} {id i : String}
  {slot : Slot} {x : VaultCacheEntries} {now n : Nat} {victim : Option String} {ids : List String}

theorem oldestAge_eq_none_iff : x.oldestAge now = none ↔ ∀ slot, x.slot slot = none := by
  unfold VaultCacheEntries.oldestAge
  rw [List.max?_eq_none_iff, List.filterMap_eq_nil_iff]
  constructor
  · intro h slot
    have hnone : ∀ o ∈ [x.vault, x.ttlRemaining, x.summary], o = none :=
      fun o ho => by simpa using h o ho
    cases slot with
    | vault => exact hnone x.vault (by simp)
    | ttlRemaining => exact hnone x.ttlRemaining (by simp)
    | summary => exact hnone x.summary (by simp)
  · intro h o ho
    have hnone : o = none := by
      simp only [List.mem_cons, List.not_mem_nil, or_false] at ho
      rcases ho with rfl | rfl | rfl
      · exact h .vault
      · exact h .ttlRemaining
      · exact h .summary
    rw [hnone]
    rfl

/-- Of this many vaults at most there are values. -/
def CacheInner.Capped (c : CacheInner R) (n : Nat) : Prop :=
  ∀ ids : List String, ids.Nodup → (∀ id ∈ ids, c.Cached id) → ids.length ≤ n

theorem CacheInner.Within.cached (h : c'.Within c) (hcached : c'.Cached id) : c.Cached id := by
  obtain ⟨slot, entry, hhas⟩ := hcached
  exact ⟨slot, entry, h id slot entry hhas⟩

theorem CacheInner.Capped.within (h : c.Capped n) (hwithin : c'.Within c) : c'.Capped n :=
  fun ids hnodup hcached => h ids hnodup fun id hid => hwithin.cached (hcached id hid)

theorem mem_map_of_cached (h : c.Cached id) : id ∈ c.map := by
  obtain ⟨slot, entry, x, hx, -⟩ := h
  exact AList.lookup_isSome.mp (by rw [hx]; rfl)

theorem length_le_entries (hnodup : ids.Nodup) (hcached : ∀ id ∈ ids, c.Cached id) :
    ids.length ≤ c.map.entries.length := by
  have hkeys : ids.length ≤ c.map.keys.length :=
    (hnodup.subperm fun id hid => mem_map_of_cached (hcached id hid)).length_le
  simpa [AList.keys, List.keys] using hkeys

/-- Without a victim no vault has values. -/
theorem not_cached_of_oldest (h : c.Oldest now none) : ¬ c.Cached id := by
  rintro ⟨slot, entry, x, hx, hentry⟩
  have hmem : (⟨id, x⟩ : Sigma fun _ : String => VaultCacheEntries) ∈ c.map.entries :=
    AList.mem_lookup_iff.mp hx
  rw [oldestAge_eq_none_iff.mp (h _ hmem) slot] at hentry
  cases hentry

/-- A victim has values. -/
theorem cached_of_oldest (h : c.Oldest now (some id)) : c.Cached id := by
  unfold CacheInner.Oldest at h
  obtain ⟨x, hx, hage⟩ := (Option.any_eq_true _ _).mp h
  have hsome : ¬ ∀ slot, x.slot slot = none := by
    intro hnone
    rw [oldestAge_eq_none_iff.mpr hnone] at hage
    cases hage
  obtain ⟨slot, hslot⟩ := not_forall.mp hsome
  obtain ⟨entry, hentry⟩ := Option.ne_none_iff_exists'.mp hslot
  exact ⟨slot, entry, x, hx, hentry⟩

/-- What the eviction leaves has room for one more vault. -/
theorem evictIfNeeded_capped (hvictim : c.Oldest now victim)
    (h : c.Capped (max 1 c.config.maxEntries)) (hnodup : ids.Nodup)
    (hcached : ∀ id ∈ ids, (c.evictIfNeeded victim).Cached id) :
    ids.length + 1 ≤ max 1 c.config.maxEntries := by
  have hwithin : (c.evictIfNeeded victim).Within c := CacheInner.within_evictIfNeeded
  have hbefore : ∀ id ∈ ids, c.Cached id := fun id hid => hwithin.cached (hcached id hid)
  rcases Nat.lt_or_ge c.map.entries.length c.config.maxEntries with hroom | hfull
  · exact le_trans (lt_of_le_of_lt (length_le_entries hnodup hbefore) hroom) (le_max_right _ _)
  cases victim with
  | none =>
      obtain rfl : ids = [] := List.eq_nil_iff_forall_not_mem.mpr fun id hid =>
        not_cached_of_oldest hvictim (hbefore id hid)
      exact le_max_left _ _
  | some i =>
      have hgone : i ∉ ids := by
        intro hi
        obtain ⟨slot, entry, x, hx, -⟩ := hcached i hi
        simp [CacheInner.evictIfNeeded, Nat.not_lt.mpr hfull] at hx
      refine h (i :: ids) (List.nodup_cons.mpr ⟨hgone, hnodup⟩) fun id hid => ?_
      rcases List.mem_cons.mp hid with rfl | hid
      · exact cached_of_oldest hvictim
      · exact hbefore id hid

theorem set_capped {value : Value slot} (hvictim : c.Oldest now victim)
    (h : c.Capped (max 1 c.config.maxEntries)) :
    (c.set J slot victim now i value).Capped (max 1 c.config.maxEntries) := by
  intro ids hnodup hcached
  have hlength : ids.length ≤ (ids.erase i).length + 1 := by
    rw [List.length_erase]
    split <;> omega
  refine le_trans hlength (evictIfNeeded_capped hvictim h (hnodup.erase i) fun id hid => ?_)
  obtain ⟨hne, hid⟩ := (List.Nodup.mem_erase_iff hnodup).mp hid
  obtain ⟨slot', entry, hhas⟩ := hcached id hid
  rcases CacheInner.has_set hhas with ⟨heq, -⟩ | ⟨-, hold⟩
  · exact absurd heq hne
  · exact ⟨slot', entry, hold⟩

theorem after_maxEntries : (c.after J F k).config.maxEntries = c.config.maxEntries := by
  obtain ⟨now, victim, op⟩ := k
  cases op with
  | get slot i => exact congrArg CacheConfig.maxEntries get_config
  | set slot i value => exact congrArg CacheConfig.maxEntries set_config
  | invalidateIfOlder i n => exact congrArg CacheConfig.maxEntries invalidateIfOlder_config.1
  | invalidate i => rfl
  | invalidateAll => rfl
  | autoTune => rfl
  | setStalenessRatio ratio => rfl
  | setCompressionThreshold n => rfl

theorem after_capped (hvictim : c.Oldest k.now k.victim)
    (h : c.Capped (max 1 c.config.maxEntries)) :
    (c.after J F k).Capped (max 1 c.config.maxEntries) := by
  obtain ⟨now, victim, op⟩ := k
  cases op with
  | get slot i => exact h.within CacheInner.within_get
  | set slot i value => exact set_capped hvictim h
  | invalidate i => exact h.within CacheInner.within_erase
  | invalidateAll =>
      refine h.within fun id slot entry hhas => ?_
      obtain ⟨x, hx, -⟩ := hhas
      simp [CacheInner.after, CacheInner.invalidateAll] at hx
  | invalidateIfOlder i n => exact h.within CacheInner.within_invalidateIfOlder
  | autoTune => exact h.within (.of_map rfl)
  | setStalenessRatio ratio => exact h.within (.of_map rfl)
  | setCompressionThreshold n => exact h.within (.of_map rfl)

theorem capped_of_run (h : Run (Step J F) (start config) ks w) :
    w.cache.Capped (max 1 config.maxEntries) := by
  have hinv : w.cache.config.maxEntries = config.maxEntries ∧
      w.cache.Capped (max 1 config.maxEntries) := by
    refine h.invariant (I := fun w => w.cache.config.maxEntries = config.maxEntries ∧
      w.cache.Capped (max 1 config.maxEntries)) ⟨rfl, ?_⟩ ?_
    · intro ids hnodup hcached
      cases ids with
      | nil => exact Nat.zero_le _
      | cons id ids =>
          have hmem := mem_map_of_cached (hcached id (by simp))
          simp [start, CacheInner.new] at hmem
    · rintro w k w' ⟨hmax, hcapped⟩ ⟨-, hvictim, rfl⟩
      rw [← hmax] at hcapped ⊢
      exact ⟨after_maxEntries, after_capped hvictim hcapped⟩
  exact hinv.2

/-- An eviction can always be decided. -/
theorem exists_oldest (c : CacheInner R) (now : Nat) : ∃ victim, c.Oldest now victim := by
  cases hmax : (c.map.entries.filterMap fun p => p.2.oldestAge now).max? with
  | none =>
      rw [List.max?_eq_none_iff, List.filterMap_eq_nil_iff] at hmax
      exact ⟨none, hmax⟩
  | some age =>
      obtain ⟨hmem, hle⟩ := List.max?_eq_some_iff.mp hmax
      obtain ⟨p, hp, hage⟩ := List.mem_filterMap.mp hmem
      refine ⟨some p.1, ?_⟩
      have hlookup : c.map.lookup p.1 = some p.2 := AList.mem_lookup_iff.mpr hp
      show (c.map.lookup p.1).any _ = true
      rw [hlookup, Option.any_some, hage, Option.any_some, List.all_eq_true]
      intro q hq
      cases hother : q.2.oldestAge now with
      | none => rfl
      | some a => exact decide_eq_true (hle a (List.mem_filterMap.mpr ⟨q, hq, hother⟩))

theorem get_expired {entry : CacheEntry} (hx : c.map.lookup id = some x)
    (hentry : x.slot slot = some entry) (hexpired : entry.isExpired now = true) :
    (c.get J F slot now id).2.map = c.map.insert id (x.withSlot none slot) := by
  simp [CacheInner.get, hx, hentry, classifySlot, hexpired]

theorem evictIfNeeded_none : c.evictIfNeeded none = c := by
  unfold CacheInner.evictIfNeeded
  split <;> rfl

/-- A value that is read after it has expired leaves a record without values. -/
theorem set_get_expired (J : Codec Value) (F : Floats R) (now : Nat) (value : Value slot)
    (hempty : ∀ id, ¬ c.Cached id) (hid : id ∉ c.map) :
    (∀ i, ¬ ((c.set J slot none now id value).get J F slot (now + c.config.ttl) id).2.Cached i) ∧
    ((c.set J slot none now id value).get J F slot (now + c.config.ttl) id).2.map.entries.length =
      c.map.entries.length + 1 := by
  let entry : CacheEntry := ⟨.encode (J.toVec slot value) c.config.compressionThreshold, now,
    c.config.ttl, c.globalVersion + 1⟩
  let x := VaultCacheEntries.new.withSlot (some entry) slot
  have hset : (c.set J slot none now id value).map = c.map.insert id x := by
    simp only [CacheInner.set, evictIfNeeded_none, AList.lookup_eq_none.mpr hid, Option.getD_none]
    rfl
  have hmap : ((c.set J slot none now id value).get J F slot (now + c.config.ttl) id).2.map =
      c.map.insert id (x.withSlot none slot) := by
    have hentry : x.slot slot = some entry := by
      show (VaultCacheEntries.new.withSlot (some entry) slot).slot slot = some entry
      rw [slot_withSlot, if_pos rfl]
    have hexpired : entry.isExpired (now + c.config.ttl) = true := by
      simp [CacheEntry.isExpired, CacheEntry.age, entry]
    rw [get_expired (by rw [hset, AList.lookup_insert]) hentry hexpired, hset, AList.insert_insert]
  refine ⟨?_, ?_⟩
  · rintro i ⟨slot', left, y, hy, hleft⟩
    rw [hmap] at hy
    rcases eq_or_ne i id with rfl | hne
    · rw [AList.lookup_insert, Option.some.injEq] at hy
      subst hy
      simp only [x, slot_withSlot, slot_new] at hleft
      split at hleft <;> cases hleft
    · exact hempty i ⟨slot', left, y, by rwa [AList.lookup_insert_ne hne] at hy, hleft⟩
  · rw [hmap, AList.entries_insert_of_notMem hid, List.length_cons]

theorem exists_records (value : Value slot) (n : Nat) : ∃ ks w,
    Run (Step J F) (start config) ks w ∧ (∀ id, ¬ w.cache.Cached id) ∧
      w.cache.map.entries.length = n := by
  induction n with
  | zero =>
      refine ⟨[], start config, .start, fun id hcached => ?_, rfl⟩
      have hmem := mem_map_of_cached hcached
      simp [start, CacheInner.new] at hmem
  | succ n ih =>
      obtain ⟨ks, w, hrun, hempty, hlength⟩ := ih
      obtain ⟨id, hfresh⟩ := Infinite.exists_notMem_finset w.cache.map.keys.toFinset
      have hid : id ∉ w.cache.map := fun h => hfresh (List.mem_toFinset.mpr (AList.mem_keys.mpr h))
      have hnone : w.cache.Oldest w.clock none := by
        obtain ⟨victim, hvictim⟩ := exists_oldest w.cache w.clock
        cases victim with
        | none => exact hvictim
        | some i => exact absurd (cached_of_oldest hvictim) (hempty i)
      obtain ⟨hempty', hlength'⟩ := set_get_expired J F w.clock value hempty hid
      have hset : Step J F w ⟨w.clock, none, .set slot id value⟩
          ⟨w.cache.set J slot none w.clock id value, w.clock⟩ := ⟨le_refl _, hnone, rfl⟩
      obtain ⟨victim, hvictim⟩ :=
        exists_oldest (w.cache.set J slot none w.clock id value) (w.clock + w.cache.config.ttl)
      have hget : Step J F ⟨w.cache.set J slot none w.clock id value, w.clock⟩
          ⟨w.clock + w.cache.config.ttl, victim, .get slot id⟩
          ⟨_, w.clock + w.cache.config.ttl⟩ := ⟨Nat.le_add_right _ _, hvictim, rfl⟩
      exact ⟨_, _, .next (.next hrun hset) hget, hempty', hlength'.trans (congrArg (· + 1) hlength)⟩

/-- In every run no more vaults have values than the capacity allows, and at least one may have
some; but records whose values have expired may be any number. -/
theorem cached_vaults_le (J : Codec Value) (F : Floats R) (config : CacheConfig R)
    (value : Value slot) :
    (∀ ks w, Run (Step J F) (start config) ks w → ∀ ids : List String, ids.Nodup →
      (∀ id ∈ ids, w.cache.Cached id) → ids.length ≤ max 1 config.maxEntries) ∧
    ∀ n, ∃ ks w, Run (Step J F) (start config) ks w ∧ w.cache.map.entries.length = n := by
  refine ⟨fun ks w hrun => capped_of_run hrun, fun n => ?_⟩
  obtain ⟨ks, w, hrun, -, hlength⟩ := exists_records value n
  exact ⟨ks, w, hrun, hlength⟩

/-- Two vaults are set, where there is room for one. -/
def twoSet : List (Access (fun _ => Option (Fin 10)) Nat) :=
  [⟨6, some "1", .set .vault "2" none⟩, ⟨5, none, .set .vault "1" (some 7)⟩]

theorem run_second : Run (Step digits percent) (start small) twoSet
    ⟨cacheOf digits percent small twoSet, 6⟩ :=
  .next (.next .start ⟨Nat.zero_le _, fun _ hp => absurd hp List.not_mem_nil, rfl⟩)
    ⟨by decide, by show Option.any _ _ = true; decide +kernel, rfl⟩

/-- The second one has been cached in place of the first. -/
theorem cached_vaults_le_one : (cacheOf digits percent small twoSet).map.keys = ["2"] ∧
    ["2"].length ≤ max 1 1 :=
  ⟨by decide +kernel, (@cached_vaults_le _ _ .vault digits percent small none).1
    _ _ run_second ["2"] (List.nodup_singleton _) fun id hid => by
      obtain rfl := List.mem_singleton.mp hid
      exact ⟨.vault, _, _, rfl, rfl⟩⟩

end Capacity

/-! ## Coherence -/

section Coherence

variable {J : Codec Value} {F : Floats R} {config : CacheConfig R} {w : World R} {c : CacheInner R}
  {ks : List (Access Value R)} {id : String} {n : Nat} {entry : CacheEntry}

theorem invalidateIfOlder_iff : (c.invalidateIfOlder id n).1 = true ↔
    id ∈ c.map ∧ ∀ entry, c.Has id .vault entry → entry.version ≤ n := by
  rw [← AList.lookup_isSome]
  unfold CacheInner.invalidateIfOlder CacheInner.Has
  cases hx : c.map.lookup id with
  | none => simp
  | some x =>
      cases hvault : x.vault with
      | none => simp [hvault, VaultCacheEntries.slot]
      | some entry =>
          rcases Nat.lt_or_ge n entry.version with hlt | hle
          · simp [hvault, VaultCacheEntries.slot, Nat.not_le.mpr hlt]
          · simp [hvault, VaultCacheEntries.slot, hle]

theorem getCoherenceToken_eq {token : CoherenceToken} (h : c.getCoherenceToken id = some token) :
    ∃ entry, c.Has id .vault entry ∧ token = ⟨id, entry.version⟩ := by
  obtain ⟨x, hx, htoken⟩ := Option.bind_eq_some_iff.mp h
  obtain ⟨entry, hentry, rfl⟩ := Option.map_eq_some_iff.mp htoken
  exact ⟨entry, ⟨x, hx, hentry⟩, rfl⟩

theorem getCoherenceToken_set {now : Nat} {value : Value .vault} :
    (c.set J .vault none now id value).getCoherenceToken id = some ⟨id, c.globalVersion + 1⟩ := by
  simp [CacheInner.getCoherenceToken, CacheInner.set, evictIfNeeded_none,
    VaultCacheEntries.withSlot]

/-- A token of another cache makes a cache drop a vault if it has not set more values up to its own
last write of the vault than the other up to its last one. The times of the writes play no part:
a vault that was not the first thing to be set survives the token of some later write. -/
theorem invalidates_iff (hlocal : Run (Step J F) (start config) ks w) (id : String) :
    (∀ config' ks' w' token, Run (Step J F) (start config') ks' w' →
      w'.cache.getCoherenceToken id = some token →
      ∃ there, lastSet J F config' .vault id ks' = some there ∧
        ((w.cache.invalidateIfOlder id token.version).1 = true ↔ id ∈ w.cache.map ∧
          ∀ entry, w.cache.Has id .vault entry →
            ∃ here, lastSet J F config .vault id ks = some here ∧ here.number ≤ there.number)) ∧
    ∀ here, lastSet J F config .vault id ks = some here → (∃ entry, w.cache.Has id .vault entry) →
      1 < here.number → ∃ config' ks' w' token there, Run (Step J F) (start config') ks' w' ∧
        w'.cache.getCoherenceToken id = some token ∧ lastSet J F config' .vault id ks' = some there ∧
        here.time < there.time ∧ (w.cache.invalidateIfOlder id token.version).1 = false := by
  have hbooks := books_of_run hlocal (le_max_left _ _) fun _ _ _ => le_max_right _ _
  refine ⟨fun config' ks' w' token hremote htoken => ?_, ?_⟩
  · obtain ⟨entry', hhas', rfl⟩ := getCoherenceToken_eq htoken
    obtain ⟨there, hthere, hkeeps'⟩ := 
      (books_of_run hremote (le_max_left _ _) fun _ _ _ => le_max_right _ _).entries id .vault
        entry' hhas'
    refine ⟨there, hthere, ?_⟩
    rw [invalidateIfOlder_iff]
    refine and_congr_right fun _ => forall₂_congr fun entry hhas => ?_
    obtain ⟨here, hhere, hkeeps⟩ := hbooks.entries id .vault entry hhas
    rw [hkeeps.version, hkeeps'.version]
    constructor
    · exact fun hle => ⟨here, hhere, hle⟩
    · rintro ⟨here', hhere', hle⟩
      obtain rfl : here = here' := Option.some.inj (hhere.symm.trans hhere')
      exact hle
  · rintro here hhere ⟨entry, hhas⟩ hnumber
    obtain ⟨write, hwrite, hkeeps⟩ := hbooks.entries id .vault entry hhas
    obtain rfl : write = here := Option.some.inj (hwrite.symm.trans hhere)
    -- the other cache sets the same vault once, just after
    have hset : Step J F (start config) ⟨write.time + 1, none, .set .vault id write.value⟩
        ⟨(start config).cache.set J .vault none (write.time + 1) id write.value, write.time + 1⟩ :=
      ⟨Nat.zero_le _, fun p hp => absurd hp List.not_mem_nil, rfl⟩
    refine ⟨config, _, _, ⟨id, 1⟩, ⟨write.value, write.time + 1, 1⟩, .next .start hset, ?_,
      dif_pos ⟨rfl, rfl⟩, Nat.lt_succ_self _, ?_⟩
    · exact getCoherenceToken_set
    · rw [← Bool.not_eq_true, invalidateIfOlder_iff]
      rintro ⟨-, hall⟩
      have hle : entry.version ≤ 1 := hall entry hhas
      rw [hkeeps.version] at hle
      omega

theorem invalidates_iff_second : ∃ (config' : CacheConfig Nat)
    (ks' : List (Access (fun _ => Option (Fin 10)) Nat)) (w' : World Nat) (token : CoherenceToken)
    (there : Write (Option (Fin 10))), Run (Step digits percent) (start config') ks' w' ∧
      w'.cache.getCoherenceToken "2" = some token ∧
      lastSet digits percent config' .vault "2" ks' = some there ∧ 6 < there.time ∧
      ((cacheOf digits percent small twoSet).invalidateIfOlder "2" token.version).1 = false :=
  (invalidates_iff run_second "2").2 ⟨none, 6, 2⟩ rfl ⟨_, _, rfl, rfl⟩ (by decide)

end Coherence

end Heirloom.Backend.VaultCache
