import Mathlib.Data.List.Nodup
import Mathlib.Data.List.Range
import Mathlib.Logic.Function.Basic

/-!
# Versioned logs with bounded retention

A log keeps the last `bound` states of something, each under the time it was
recorded at and with a version number. A second record at the same time replaces
the first and keeps its number; beyond the bound the oldest state is dropped.

* `Wf`: times increase, versions are consecutive, and there is one entry for each
  retained time, which carries its version.
* `Wf.record`: recording keeps this, as long as time does not go back.
* `latest_record`: what was recorded is the latest state.
* `asOf_record_of_lt`: what the log says of a point in time, after one more record.
* `asOf_of_cut`: the state found by cutting the times at the point in time.
-/

namespace Versions

variable {α : Type}

/-- The retained times, their versions and what was recorded at each of them. -/
structure VersionLog (α : Type) where
  times : List Nat
  versions : List Nat
  entry : Nat → Option α

namespace VersionLog

/-- The number of the newest version; versions start at 1. -/
def newest (h : VersionLog α) : Nat := h.versions.getLast?.getD 0

/-- Replaces what was recorded at `now`. -/
def overwrite (h : VersionLog α) (now : Nat) (a : α) : VersionLog α :=
  { h with entry := Function.update h.entry now (some a) }

/-- Adds a version. -/
def append (h : VersionLog α) (now version : Nat) (a : α) : VersionLog α :=
  ⟨h.times ++ [now], h.versions ++ [version], Function.update h.entry now (some a)⟩

/-- Forgets the oldest version. -/
def drop (h : VersionLog α) : VersionLog α :=
  ⟨h.times.tail, h.versions.tail, Function.update h.entry (h.times.headD 0) none⟩

/-- Records a state, given its version, at time `now`. -/
def record (bound now : Nat) (make : Nat → α) (h : VersionLog α) : VersionLog α :=
  if h.times.getLast? = some now then
    h.overwrite now (make (h.versions.getLast?.getD 1))
  else if bound < h.times.length + 1 then
    (h.append now (h.newest + 1) (make (h.newest + 1))).drop
  else
    h.append now (h.newest + 1) (make (h.newest + 1))

/-- The state with the given version, if it is retained. -/
def ofVersion (h : VersionLog α) (version : Nat) : Option α := do
  let i ← h.versions.findIdx? (· = version)
  let time ← h.times[i]?
  h.entry time

/-- The last state recorded at or before `time`, if it is retained. -/
def asOf (h : VersionLog α) (time : Nat) : Option α :=
  (h.times.reverse.find? (· ≤ time)).bind h.entry

/-- The state that was recorded last. -/
def latest (h : VersionLog α) : Option α := h.times.getLast?.bind h.entry

/-- The bookkeeping of a log whose states carry their versions as `tag`. -/
structure Wf (tag : α → Nat) (h : VersionLog α) : Prop where
  increasing : h.times.Pairwise (· < ·)
  consecutive : ∃ first, h.versions = List.range' (first + 1) h.times.length
  entries : ∀ time, (h.entry time).isSome = true ↔ time ∈ h.times
  tagged : ∀ (i time : Nat) (a : α), h.times[i]? = some time → h.entry time = some a →
    h.versions[i]? = some (tag a)

variable {h : VersionLog α} {tag : α → Nat} {bound now time version : Nat} {make : Nat → α} {a : α}

/-! ## Well-formed logs -/

theorem Wf.length_versions (hw : h.Wf tag) : h.versions.length = h.times.length := by
  obtain ⟨first, hfirst⟩ := hw.consecutive
  simp [hfirst]

/-- A log without entries. -/
theorem wf_empty (htimes : h.times = []) (hversions : h.versions = [])
    (hentry : ∀ time, h.entry time = none) : h.Wf tag :=
  ⟨by simp [htimes], ⟨0, by simp [htimes, hversions]⟩, by simp [htimes, hentry], by simp [hentry]⟩

theorem Wf.overwrite (hw : h.Wf tag) (hnow : now ∈ h.times)
    (htag : ∀ i : Nat, h.times[i]? = some now → h.versions[i]? = some (tag a)) :
    (h.overwrite now a).Wf tag := by
  refine ⟨hw.increasing, hw.consecutive, fun time => ?_, fun i time b htime hentry => ?_⟩
  · by_cases heq : time = now
    · subst heq
      simpa [VersionLog.overwrite] using hnow
    · simpa [VersionLog.overwrite, Function.update_of_ne heq] using hw.entries time
  · by_cases heq : time = now
    · subst heq
      obtain rfl : a = b := by simpa [VersionLog.overwrite] using hentry
      exact htag i htime
    · simp only [VersionLog.overwrite, Function.update_of_ne heq] at hentry
      exact hw.tagged i time b htime hentry

theorem Wf.newest_eq {first : Nat} (hfirst : h.versions = List.range' (first + 1) h.times.length)
    (hne : h.times ≠ []) : h.newest = first + h.times.length := by
  have hpos : 0 < h.times.length := List.length_pos_iff.mpr hne
  rw [newest, hfirst, List.getLast?_eq_getElem?, List.length_range',
    List.getElem?_range' (by omega)]
  simp only [Option.getD_some]
  omega

theorem Wf.append (hw : h.Wf tag) (hnow : ∀ time ∈ h.times, time < now)
    (hversion : version = h.newest + 1) (htag : tag a = version) :
    (h.append now version a).Wf tag := by
  obtain ⟨first, hfirst⟩ := hw.consecutive
  refine ⟨?_, ?_, fun time => ?_, fun i time b htime hentry => ?_⟩
  · exact List.pairwise_append.mpr ⟨hw.increasing, List.pairwise_singleton _ _, by simpa using hnow⟩
  · by_cases hne : h.times = []
    · refine ⟨0, ?_⟩
      simp [VersionLog.append, hversion, newest, hfirst, hne]
    · refine ⟨first, ?_⟩
      rw [newest_eq hfirst hne] at hversion
      simp only [VersionLog.append, hfirst, hversion, List.length_append, List.length_singleton,
        List.range'_concat]
      congr 2
      omega
  · by_cases heq : time = now
    · subst heq
      simp [VersionLog.append]
    · simp [VersionLog.append, hw.entries time, heq]
  · have hlen : i < h.times.length ∨ i = h.times.length := by
      have := (List.getElem?_eq_some_iff.mp htime).1
      simp [VersionLog.append] at this
      omega
    rcases hlen with hlt | rfl
    · have hold : h.times[i]? = some time := by
        simpa [VersionLog.append, List.getElem?_append_left hlt] using htime
      have heq : time ≠ now := (hnow time (List.mem_of_getElem? hold)).ne
      simp only [VersionLog.append, Function.update_of_ne heq] at hentry
      have hversions := hw.tagged i time b hold hentry
      simpa only [VersionLog.append,
        List.getElem?_append_left (hw.length_versions.symm ▸ hlt)] using hversions
    · obtain rfl : now = time := by simpa [VersionLog.append] using htime
      obtain rfl : a = b := by simpa [VersionLog.append] using hentry
      simp [VersionLog.append, ← hw.length_versions, htag]

theorem Wf.drop (hw : h.Wf tag) (hne : h.times ≠ []) : h.drop.Wf tag := by
  obtain ⟨oldest, times, htimes⟩ := List.exists_cons_of_ne_nil hne
  obtain ⟨first, hfirst⟩ := hw.consecutive
  have hincreasing := hw.increasing
  rw [htimes, List.pairwise_cons] at hincreasing
  have hentry : ∀ time, time ≠ oldest → h.drop.entry time = h.entry time := fun time heq => by
    simp [VersionLog.drop, htimes, Function.update_of_ne heq]
  have htail : h.drop.times = times := by simp [VersionLog.drop, htimes]
  refine ⟨htail ▸ hincreasing.2, ⟨first + 1, ?_⟩, fun time => ?_, fun i time b htime hb => ?_⟩
  · simp [VersionLog.drop, hfirst, htimes, List.range'_succ]
  · rw [htail]
    by_cases heq : time = oldest
    · subst heq
      have hnot : time ∉ times := fun hmem => (hincreasing.1 time hmem).false
      simp [VersionLog.drop, htimes, hnot]
    · rw [hentry time heq, hw.entries time, htimes]
      simp [heq]
  · rw [htail] at htime
    have heq : time ≠ oldest := (hincreasing.1 time (List.mem_of_getElem? htime)).ne'
    rw [hentry time heq] at hb
    have hold : h.times[i + 1]? = some time := by simpa [htimes] using htime
    simpa [VersionLog.drop] using hw.tagged (i + 1) time b hold hb

/-- A retained time has one index only. -/
theorem Wf.index_unique (hw : h.Wf tag) {i j : Nat} (hi : h.times[i]? = some time)
    (hj : h.times[j]? = some time) : i = j := by
  obtain ⟨hi', hi⟩ := List.getElem?_eq_some_iff.mp hi
  obtain ⟨hj', hj⟩ := List.getElem?_eq_some_iff.mp hj
  have hnodup : h.times.Nodup := hw.increasing.imp fun hlt => hlt.ne
  exact (List.Nodup.getElem_inj_iff hnodup).mp (hi.trans hj.symm)

/-- A time that no other exceeds is the last one. -/
theorem Wf.later (hw : h.Wf tag) (hnow : ∀ time ∈ h.times, time ≤ now)
    (hlast : h.times.getLast? ≠ some now) : ∀ time ∈ h.times, time < now := by
  intro time htime
  refine (hnow time htime).lt_of_ne ?_
  rintro rfl
  obtain ⟨last, hmem⟩ : ∃ last, h.times.getLast? = some last :=
    Option.isSome_iff_exists.mp (by simpa using List.ne_nil_of_mem htime)
  have hle : last ≤ time := hnow last (List.mem_of_getLast? hmem)
  have hge : time ≤ last := by
    obtain ⟨front, hfront⟩ := List.getLast?_eq_some_iff.mp hmem
    have hincreasing := hw.increasing
    rw [hfront] at htime hincreasing
    rcases List.mem_append.mp htime with hin | hin
    · exact ((List.pairwise_append.mp hincreasing).2.2 time hin last (by simp)).le
    · exact (List.mem_singleton.mp hin).le
  exact hlast (hmem.trans (congrArg some (hle.antisymm hge)))

/-- Recording keeps a log well formed, as long as time does not go back. -/
theorem Wf.record (hw : h.Wf tag) (hnow : ∀ time ∈ h.times, time ≤ now)
    (htag : ∀ version, tag (make version) = version) : (h.record bound now make).Wf tag := by
  unfold VersionLog.record
  split
  · next hlast =>
      refine hw.overwrite (List.mem_of_getLast? hlast) fun i hi => ?_
      -- the time is the last one, so its version is the last one too
      rw [List.getLast?_eq_getElem?] at hlast
      obtain rfl := hw.index_unique hi hlast
      have hlt : h.times.length - 1 < h.versions.length :=
        hw.length_versions ▸ (List.getElem?_eq_some_iff.mp hi).1
      rw [List.getLast?_eq_getElem?, hw.length_versions, List.getElem?_eq_getElem hlt, htag]
      rfl
  · next hlast =>
      have happend := hw.append (hw.later hnow hlast) rfl (htag (h.newest + 1))
      split
      · exact happend.drop (by simp [VersionLog.append])
      · exact happend

/-- No more than the bound is retained. -/
theorem length_record (hlen : h.times.length ≤ bound) :
    (h.record bound now make).times.length ≤ bound := by
  unfold record
  split
  · exact hlen
  · split
    · simpa [drop, append] using hlen
    · next hfits => simpa [append] using hfits

/-- After a record, the newest time is now. -/
theorem mem_times_record (htime : time ∈ (h.record bound now make).times) :
    time ∈ h.times ∨ time = now := by
  unfold record at htime
  split at htime
  · exact .inl htime
  · split at htime
    · simpa [append] using List.mem_of_mem_tail htime
    · simpa [append] using htime

/-! ## Versions -/

/-- A state found under a version carries this version. -/
theorem Wf.tag_of_ofVersion (hw : h.Wf tag) (ha : h.ofVersion version = some a) :
    tag a = version := by
  simp only [ofVersion, Option.bind_eq_bind, Option.bind_eq_some_iff] at ha
  obtain ⟨i, hi, time, htime, hentry⟩ := ha
  have htagged := hw.tagged i time a htime hentry
  obtain ⟨hlt, hversion, -⟩ := List.findIdx?_eq_some_iff_getElem.mp hi
  rw [List.getElem?_eq_getElem hlt] at htagged
  exact (Option.some.inj htagged).symm.trans (by simpa using hversion)

/-- A version is found exactly as long as it is retained. -/
theorem Wf.ofVersion_isSome (hw : h.Wf tag) :
    (h.ofVersion version).isSome = true ↔ version ∈ h.versions := by
  constructor
  · intro hsome
    obtain ⟨a, ha⟩ := Option.isSome_iff_exists.mp hsome
    simp only [ofVersion, Option.bind_eq_bind, Option.bind_eq_some_iff] at ha
    obtain ⟨i, hi, -⟩ := ha
    obtain ⟨hlt, hversion, -⟩ := List.findIdx?_eq_some_iff_getElem.mp hi
    exact (by simpa using hversion : h.versions[i] = version) ▸ List.getElem_mem hlt
  · intro hmem
    cases hi : h.versions.findIdx? (· = version) with
    | none => simpa using List.findIdx?_eq_none_iff.mp hi version hmem
    | some i =>
        have hlt : i < h.times.length :=
          hw.length_versions ▸ (List.findIdx?_eq_some_iff_getElem.mp hi).1
        have hentry : (h.entry h.times[i]).isSome = true :=
          (hw.entries _).mpr (List.getElem_mem hlt)
        simpa [ofVersion, hi, List.getElem?_eq_getElem hlt] using hentry

theorem newest_append : (h.append now version a).newest = version := by
  simp [newest, append]

theorem newest_drop (hne : h.versions.tail ≠ []) : h.drop.newest = h.newest := by
  cases hversions : h.versions with
  | nil => simp [hversions] at hne
  | cons first rest =>
      have hrest : rest ≠ [] := by simpa [hversions] using hne
      simp [newest, drop, hversions, List.getLast?_cons, List.getLast?_eq_some_getLast hrest]

/-- The newest version only grows, and a version that has been dropped stays away. -/
theorem forgotten_record (hle : version ≤ h.newest)
    (hnot : version ∉ h.versions) : version ≤ (h.record bound now make).newest ∧
      version ∉ (h.record bound now make).versions := by
  unfold VersionLog.record
  split
  · exact ⟨hle, hnot⟩
  · have hnew : version ∉ h.versions ++ [h.newest + 1] := by
      simpa [hnot] using (by omega : version ≠ h.newest + 1)
    have hlast : (h.append now (h.newest + 1) (make (h.newest + 1))).newest = h.newest + 1 :=
      newest_append
    split
    · refine ⟨?_, fun hmem => hnew (List.mem_of_mem_tail hmem)⟩
      by_cases hempty : h.versions = []
      · have : h.newest = 0 := by simp [newest, hempty]
        omega
      · have htail : (h.append now (h.newest + 1) (make (h.newest + 1))).versions.tail ≠ [] := by
          simp [VersionLog.append, List.tail_append_of_ne_nil hempty]
        rw [newest_drop htail, hlast]
        omega
    · exact ⟨by omega, hnew⟩

/-! ## Points in time -/

/-- What was recorded last, for a point in time after it. -/
theorem asOf_of_last {last : Nat} (hlast : h.times.getLast? = some last) (hle : last ≤ time) :
    h.asOf time = h.entry last := by
  obtain ⟨front, hfront⟩ := List.getLast?_eq_some_iff.mp hlast
  simp [asOf, hfront, hle]

/-- An entry that is not looked up may change. -/
theorem asOf_update {o : Option α} (hlt : time < now) :
    (h.times.reverse.find? (· ≤ time)).bind (Function.update h.entry now o) = h.asOf time := by
  cases hfound : h.times.reverse.find? (· ≤ time) with
  | none => simp [asOf, hfound]
  | some t =>
      have hle : t ≤ time := by simpa using List.find?_some hfound
      simp [asOf, hfound, Function.update_of_ne (by omega : t ≠ now)]

theorem asOf_overwrite (hlt : time < now) : (h.overwrite now a).asOf time = h.asOf time :=
  asOf_update (h := h) (o := some a) hlt

theorem asOf_append (hlt : time < now) : (h.append now version a).asOf time = h.asOf time := by
  have hfind : (h.append now version a).times.reverse.find? (· ≤ time) =
      h.times.reverse.find? (· ≤ time) := by
    simp [append, hlt]
  rw [asOf, hfind]
  exact asOf_update hlt

/-- The oldest state is not the one looked up, if a later one qualifies. -/
theorem asOf_drop (hw : h.Wf tag) {oldest : Nat} (holdest : h.drop.times.head? = some oldest)
    (hle : oldest ≤ time) : h.drop.asOf time = h.asOf time := by
  cases htimes : h.times with
  | nil => simp [drop, htimes] at holdest
  | cons first rest =>
      have hrest : h.drop.times = rest := by simp [drop, htimes]
      rw [hrest] at holdest
      have hincreasing := hw.increasing
      rw [htimes, List.pairwise_cons] at hincreasing
      cases hfound : rest.reverse.find? (· ≤ time) with
      | none =>
          have hmem : oldest ∈ rest := List.mem_of_mem_head? holdest
          simpa [hle] using List.find?_eq_none.mp hfound oldest (by simpa using hmem)
      | some t =>
          have hmem : t ∈ rest := by simpa using List.mem_of_find?_eq_some hfound
          have hne : t ≠ first := (hincreasing.1 t hmem).ne'
          have hthere : h.times.reverse.find? (· ≤ time) = some t := by
            rw [htimes, List.reverse_cons, List.find?_append, hfound]
            rfl
          rw [asOf, hrest, hfound, asOf, hthere]
          simp [drop, htimes, Function.update_of_ne hne]

/-- A record says nothing about an earlier time, as long as that is retained. -/
theorem asOf_record_of_lt (hw : h.Wf tag) (hnow : ∀ time ∈ h.times, time ≤ now)
    (htag : ∀ version, tag (make version) = version) (hlt : time < now) {oldest : Nat}
    (holdest : (h.record bound now make).times.head? = some oldest) (hle : oldest ≤ time) :
    (h.record bound now make).asOf time = h.asOf time := by
  unfold record at holdest ⊢
  split
  · exact asOf_overwrite hlt
  · next hlast =>
      rw [if_neg hlast] at holdest
      split
      · next hfull =>
          rw [if_pos hfull] at holdest
          have happend := hw.append (hw.later hnow hlast) rfl (htag (h.newest + 1))
          rw [asOf_drop happend holdest hle, asOf_append hlt]
      · exact asOf_append hlt

/-- What a record retains of the past was retained before. -/
theorem oldest_record (hw : h.Wf tag) (hlt : time < now) {oldest : Nat}
    (holdest : (h.record bound now make).times.head? = some oldest) (hle : oldest ≤ time) :
    ∃ o, h.times.head? = some o ∧ o ≤ time := by
  have hmem : oldest ∈ h.times := by
    refine (mem_times_record (List.mem_of_mem_head? holdest)).resolve_right ?_
    omega
  cases htimes : h.times with
  | nil => simp [htimes] at hmem
  | cons first rest =>
      have hincreasing := hw.increasing
      rw [htimes, List.pairwise_cons] at hincreasing
      rw [htimes] at hmem
      refine ⟨first, rfl, ?_⟩
      rcases List.mem_cons.mp hmem with rfl | hin
      · exact hle
      · exact (hincreasing.1 oldest hin).le.trans hle

/-- What was recorded is the latest state. -/
theorem latest_record (bound : Nat) (make : Nat → α) (hw : h.Wf tag)
    (hnow : ∀ time ∈ h.times, time ≤ now) (hbound : 0 < bound) :
    ∃ version, (h.record bound now make).latest = some (make version) := by
  unfold record
  split
  · next hlast => exact ⟨h.versions.getLast?.getD 1, by simp [latest, overwrite, hlast]⟩
  · next hlast =>
      split
      · next hfull =>
          -- there is an older state to drop, and it is not this one
          obtain ⟨oldest, rest, htimes⟩ := List.exists_cons_of_ne_nil
            (l := h.times) (fun hnil => by simp [hnil] at hfull; omega)
          have hne : now ≠ oldest := (hw.later hnow hlast oldest (by simp [htimes])).ne'
          refine ⟨h.newest + 1, ?_⟩
          simp [latest, drop, append, htimes, Function.update_of_ne hne]
      · exact ⟨h.newest + 1, by simp [latest, append]⟩

/-- The latest state is that of any point in time after it. -/
theorem asOf_eq_latest (htimes : ∀ t ∈ h.times, t ≤ time) : h.asOf time = h.latest := by
  cases hlast : h.times.getLast? with
  | none => simp [asOf, latest, List.getLast?_eq_none_iff.mp hlast]
  | some last =>
      rw [asOf_of_last hlast (htimes last (List.mem_of_getLast? hlast)), latest, hlast]
      rfl

/-- The state found by cutting the times where they pass the point in time. -/
theorem asOf_of_cut {n : Nat} (hlow : ∀ t ∈ h.times.take n, t ≤ time)
    (hhigh : ∀ t ∈ h.times.drop n, time < t) :
    h.asOf time = (h.times.take n).getLast?.bind h.entry := by
  have hnone : (h.times.drop n).reverse.find? (· ≤ time) = none := by
    rw [List.find?_eq_none]
    intro t ht
    simpa using hhigh t (List.mem_reverse.mp ht)
  have hfind : h.times.reverse.find? (· ≤ time) = (h.times.take n).getLast? := by
    conv_lhs => rw [← List.take_append_drop n h.times]
    rw [List.reverse_append, List.find?_append, hnone, Option.none_or, List.getLast?_eq_head?_reverse]
    cases hrev : (h.times.take n).reverse with
    | nil => rfl
    | cons t rest =>
        have hle : t ≤ time := hlow t (List.mem_reverse.mp (hrev ▸ List.mem_cons_self))
        simp [hle]
  rw [asOf, hfind]

end VersionLog

end Versions
