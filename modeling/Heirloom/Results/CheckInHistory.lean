import Heirloom.System
import Heirloom.Lib.RingBuffer

/-!
# The history of check-ins

Some of the ways to check in leave their time in a ring of 50 slots, which three functions read:
the whole history, a page of it, and the prediction of the next expiry from the times of the
last ten.

* `CheckInCall.records`: how often a call records a vault.
* `exec_ring`: what a call does to the ring of a vault.
* `check_in_history_window`: of every run, the readers see the last 50 recorded times in order,
  page by page or at once, and the prediction is the average of the last ten.
-/

namespace Heirloom

open Transaction TypedStore Runs RingBuffer

/-! ## The readers -/

/-- The slot of the entry that is the `i`-th from the oldest. -/
def historySlot (len head i : Nat) : Nat := if len < 50 then i else (head + i) % 50

/-- The loop of the readers over a range of entries. -/
def collectEntries (vaultId len head start stop : Nat) : Contract (List CheckInHistoryEntry) :=
  foldEach (List.range' start (stop - start)) [] fun result i => do
    let entry : Option CheckInHistoryEntry ←
      storageGet (.checkInEntry vaultId (historySlot len head i))
    return result ++ entry.toList

def getCheckInHistory (vaultId : Nat) : Contract (List CheckInHistoryEntry) := do
  let len : Nat := (← storageGet (.checkInHistoryLen vaultId)).getD 0
  if len = 0 then return []
  else do
    let head : Nat := (← storageGet (.checkInHistoryHead vaultId)).getD 0
    collectEntries vaultId len head 0 len

def getCheckInHistoryPage (vaultId page pageSize : Nat) :
    Contract (List CheckInHistoryEntry) := do
  let len : Nat := (← storageGet (.checkInHistoryLen vaultId)).getD 0
  let start ← u32 (page * pageSize)
  if len ≤ start then return []
  else do
    let stop := min (← u32 (start + pageSize)) len
    let head : Nat := (← storageGet (.checkInHistoryHead vaultId)).getD 0
    collectEntries vaultId len head start stop

/-- The average time between the last ten check-ins, if there are two at least. -/
def predictedInterval (vaultId : Nat) (vault : Vault) : Contract Nat := do
  let len : Nat := (← storageGet (.checkInHistoryLen vaultId)).getD 0
  if 2 ≤ len then do
    let n := min len 10
    let head : Nat := (← storageGet (.checkInHistoryHead vaultId)).getD 0
    let first : Option CheckInHistoryEntry ←
      storageGet (.checkInEntry vaultId (historySlot len head (len - n)))
    let last : Option CheckInHistoryEntry ←
      storageGet (.checkInEntry vaultId (historySlot len head (len - 1)))
    ifSomeElse first
      (fun first => ifSomeElse last
        (fun last => do
          let elapsed ← subU last.timestamp first.timestamp
          return max (elapsed / (n - 1)) 1)
        (pure vault.checkInInterval))
      (pure vault.checkInInterval)
  else return vault.checkInInterval

def predictExpiry (vaultId : Nat) : Contract Nat := do
  let vault ← loadVault vaultId
  let interval ← predictedInterval vaultId vault
  return saturatingAdd64 vault.lastCheckIn interval

/-! ## Recorded check-ins -/

/-- The vaults whose check-in the call records, as often as it does. -/
def CheckInCall.recorded : CheckInCall → List Nat
  | .checkIn id _ _ _ | .checkInWithGeo id _ _ | .checkInWithPow id _ _ _ _ => [id]
  | .batchCheckInV2 ids _ _ => ids
  | _ => []

/-- The times that an event records for vault `id`. -/
def Event.recorded (id : Nat) : Event → List Nat
  | .call e (.checkIn c) => List.replicate (c.recorded.count id) e.timestamp
  | _ => []

/-- The times recorded for vault `id` along a history, oldest first. -/
def recordedTimes (id : Nat) (ks : List Event) : List Nat := ks.reverse.flatMap (Event.recorded id)

/-- The ring of a vault. -/
def historyRing (s : State) (id : Nat) : Buffer CheckInHistoryEntry where
  slots i := s.get (.checkInEntry id i)
  len := (s.get (.checkInHistoryLen id)).getD 0
  head := (s.get (.checkInHistoryHead id)).getD 0

section Steps

variable {e : Env} {s t : State} {id i : Nat} {k : DataKey} {x : k.Value} {c : CheckInCall}
  {f : Footprint}

/-- The ring is in three kinds of keys. -/
theorem historyRing_congr (hentry : ∀ j, t.get (.checkInEntry id j) = s.get (.checkInEntry id j))
    (hlen : t.get (.checkInHistoryLen id) = s.get (.checkInHistoryLen id))
    (hhead : t.get (.checkInHistoryHead id) = s.get (.checkInHistoryHead id)) :
    historyRing t id = historyRing s id := by
  rw [historyRing, historyRing, hlen, hhead]
  simp only [hentry]

@[simp] theorem historyRing_put (hentry : ∀ j, k ≠ .checkInEntry id j)
    (hlen : k ≠ .checkInHistoryLen id) (hhead : k ≠ .checkInHistoryHead id) :
    historyRing (s.put k x) id = historyRing s id :=
  historyRing_congr (fun j => State.get_put_of_ne (hentry j).symm)
    (State.get_put_of_ne hlen.symm) (State.get_put_of_ne hhead.symm)

@[simp] theorem historyRing_transferAll {log : List (TokenLedger.Transfer Address Address)} :
    historyRing (s.transferAll log) id = historyRing s id := rfl

/-- The rings take the time once for each of the vaults. -/
def Records (ids : List Nat) (now : Nat) (s t : State) : Prop :=
  ∀ id, historyRing t id = (fun r => r.push 50 ⟨now⟩)^[ids.count id] (historyRing s id)

theorem recordCheckInHistory_records {now : Nat} :
    wp (recordCheckInHistory i now) (fun _ t => Records [i] now s t) e s := by
  have hslots : ∀ slot : Nat, (fun j => (s.put (.checkInEntry i slot) ⟨now⟩).get
      (.checkInEntry i j)) =
        Function.update (fun j => s.get (.checkInEntry i j)) slot (some ⟨now⟩) := by
    intro slot
    funext j
    by_cases hj : j = slot
    · subst hj
      rw [State.get_put_self, Function.update_self]
    · rw [State.get_put_of_ne (by simpa using hj), Function.update_of_ne hj]
  have hother : ∀ id, ¬ i = id → [i].count id = 0 := fun id h =>
    List.count_eq_zero_of_not_mem (by simpa using Ne.symm h)
  simp only [recordCheckInHistory, Tx.wp_bind, wp_storageGet, Tx.wp_ite, wp_storageSet]
  refine ⟨fun hroom id => ?_, fun hfull id => ?_⟩
  · by_cases h : i = id
    · subst h
      rw [List.count_singleton_self, Function.iterate_one, Buffer.push,
        if_pos (show (historyRing s i).len < 50 from hroom)]
      simp [historyRing, hslots]
    · simp [h, hother id h]
  · by_cases h : i = id
    · subst h
      rw [List.count_singleton_self, Function.iterate_one, Buffer.push,
        if_neg (show ¬ (historyRing s i).len < 50 from hfull)]
      simp [historyRing, hslots]
    · simp [h, hother id h]

/-- What leaves the rings alone before and after does not count. -/
theorem Records.congr {ids : List Nat} {now : Nat} {s' t' : State} (h : Records ids now s t)
    (hs : ∀ id, historyRing s id = historyRing s' id)
    (ht : ∀ id, historyRing t' id = historyRing t id) : Records ids now s' t' :=
  fun id => by rw [ht, h id, hs]

theorem checkIn_records {caller : Address} {hash : Bytes32} {nonce : Nat} :
    wp (checkIn i caller hash nonce) (fun _ t => Records [i] e.timestamp s t) e s := by
  simp [checkIn, prepareCheckIn, spendDelegateNonce, -wp_recordCheckInHistory]
  intro _ _ v _ _ _
  refine ⟨fun _ _ _ _ _ _ _ _ _ => ?_, fun _ _ _ _ _ _ => ?_⟩ <;>
    refine Tx.wp_mono payInactivityPenalty_spec ?_ <;>
    rintro _ _ ⟨log, rfl, -⟩ _ _ <;>
    refine Tx.wp_mono recordCheckInHistory_records fun _ t ht => ?_ <;>
    exact ht.congr (by simp) (by simp)

theorem Records.append {l l' : List Nat} {now : Nat} {u : State} (h : Records l now s t)
    (h' : Records l' now t u) : Records (l ++ l') now s u := by
  intro id
  rw [h' id, h id, List.count_append, Nat.add_comm, Function.iterate_add_apply]

theorem applyBatchCheckInV2_records {ids : List Nat} {now : Nat} :
    wp (forEach ids (applyBatchCheckInV2 now)) (fun _ t => Records ids now s t) e s := by
  induction ids generalizing s with
  | nil =>
      simp only [forEach, Tx.wp_pure]
      exact fun _ => rfl
  | cons i is ih =>
      simp only [forEach, Tx.wp_bind]
      have hone : wp (applyBatchCheckInV2 now i) (fun _ t => Records [i] now s t) e s := by
        simp [applyBatchCheckInV2, -wp_recordCheckInHistory]
        intro _ _
        refine Tx.wp_mono recordCheckInHistory_records fun _ t ht => ?_
        exact ht.congr (by simp) (by simp)
      exact Tx.wp_mono hone fun _ t ht => Tx.wp_mono ih fun _ u hu => ht.append hu

theorem batchCheckInV2_records {ids : List Nat} {caller : Address} {hash : Bytes32} :
    wp (batchCheckInV2 ids caller hash) (fun _ t => Records ids e.timestamp s t) e s := by
  simp only [batchCheckInV2, Tx.wp_bind, wp_loadPaused, wp_require, wp_requireAuth, wp_timestamp]
  intro _ _
  refine Tx.wp_mono (Tx.ReadOnly.forEach (fun _ _ _ => by simp [validateBatchCheckInV2]) e s) ?_
  rintro _ t ht
  obtain rfl := ht.symm
  exact applyBatchCheckInV2_records

/-- A call outside the area of check-ins records nothing. -/
theorem records_of_frame {now : Nat} (h : Frame f s t) (hf : .checkIns ∉ f.areas) :
    Records [] now s t := by
  intro id
  refine historyRing_congr (fun j => h.get_of_area ?_) (h.get_of_area ?_) (h.get_of_area ?_) <;>
    simpa using hf

theorem execCheckIn_records : wp (execCheckIn c) (fun _ t => Records c.recorded e.timestamp s t)
    e s := by
  have hframe := execCheckIn_frame (e := e) (s := s) c
  cases c with
  | checkIn | checkInWithGeo => exact checkIn_records
  | checkInWithPow =>
      simp [execCheckIn, CheckInCall.recorded, checkInWithPow, -wp_recordCheckInHistory]
      intros
      refine Tx.wp_mono recordCheckInHistory_records fun _ t ht => ?_
      exact ht.congr (by simp) (by simp)
  | batchCheckInV2 => exact batchCheckInV2_records
  | borrowTtl =>
      simp [execCheckIn, CheckInCall.recorded, borrowTtl, Records]
  | repayTtlBorrow =>
      simp [execCheckIn, CheckInCall.recorded, repayTtlBorrow, Records]
  | addCheckInDelegate =>
      simp [execCheckIn, CheckInCall.recorded, addCheckInDelegate, Records]
  | removeCheckInDelegate =>
      simp [execCheckIn, CheckInCall.recorded, removeCheckInDelegate, Records]
  | setRecoveryContact =>
      simp [execCheckIn, CheckInCall.recorded, setRecoveryContact, Records]
  | _ => exact Tx.wp_mono hframe fun _ _ h => records_of_frame h (by simp [CheckInCall.footprint])

/-- Only calls about check-ins write their area. -/
theorem Call.checkIns_writer {c : Call} (h : .checkIns ∈ (c.footprint s).areas) :
    ∃ o, c = .checkIn o := by
  cases c with
  | checkIn c => exact ⟨c, rfl⟩
  | _ => simpa [Call.areas] using Call.mem_areas h

end Steps

/-! ## Runs -/

section Run

variable {e : Env} {s t : State} {w₀ w : World} {ks : List Event} {id : Nat}

theorem recordedTimes_cons {k : Event} :
    recordedTimes id (k :: ks) = recordedTimes id ks ++ k.recorded id := by
  simp [recordedTimes]

/-- The ring of a vault is that of the times recorded for it, which are in order. -/
structure HistoryKept (id : Nat) (ks : List Event) (w : World) : Prop where
  ring : Holds 50 (historyRing w.state id) ((recordedTimes id ks).map CheckInHistoryEntry.mk)
  ordered : (recordedTimes id ks).Pairwise (· ≤ ·)
  past : ∀ now ∈ recordedTimes id ks, now ≤ w.clock

theorem historyKept_call {c : Call} (h : HistoryKept id ks w) (hnum : w.state.Numbered)
    (hclock : w.clock ≤ e.timestamp) (hexec : exec c e w.state = .ok ((), t)) :
    HistoryKept id (.call e c :: ks) ⟨t, e.timestamp⟩ := by
  have hring : ∃ n, (Event.call e c).recorded id = List.replicate n e.timestamp ∧
      historyRing t id = (fun r => r.push 50 ⟨e.timestamp⟩)^[n] (historyRing w.state id) := by
    have hother : (∀ o, c ≠ .checkIn o) → Records [] e.timestamp w.state t := fun hc =>
      records_of_frame (exec_frame c hnum _ _ hexec) fun hf =>
        (Call.checkIns_writer hf).elim hc
    cases c with
    | checkIn o => exact ⟨_, rfl, execCheckIn_records _ _ hexec id⟩
    | _ => exact ⟨0, rfl, hother (by simp) id⟩
  obtain ⟨n, hrecorded, hring⟩ := hring
  refine ⟨?_, ?_, ?_⟩
  · rw [recordedTimes_cons, hrecorded, List.map_append, List.map_replicate, hring]
    exact h.ring.iterate_push
  · rw [recordedTimes_cons, hrecorded, List.pairwise_append]
    refine ⟨h.ordered, List.pairwise_replicate.mpr (.inr le_rfl), fun now hnow x hx => ?_⟩
    exact List.eq_of_mem_replicate hx ▸ (h.past now hnow).trans hclock
  · rw [recordedTimes_cons, hrecorded]
    intro now hnow
    rcases List.mem_append.mp hnow with hold | hnew
    · exact (h.past now hold).trans hclock
    · exact (List.eq_of_mem_replicate hnew).le

theorem historyKept_of_run (h₀ : Genesis w₀) (hrun : Run Step w₀ ks w) : HistoryKept id ks w := by
  refine history_of_run (I := HistoryKept id) h₀ hrun ?_
    (fun hnum h hclock hexec => historyKept_call h hnum hclock hexec) fun l h => ?_
  · refine ⟨holds_nil ?_ ?_, .nil, by simp [recordedTimes]⟩
    · simp [historyRing, h₀.get (k := .checkInHistoryLen id) (by simp)]
    · simp [historyRing, h₀.get (k := .checkInHistoryHead id) (by simp)]
  · have hnone : ∀ ks, recordedTimes id (.tokens :: ks) = recordedTimes id ks := fun ks => by
      simp [recordedTimes_cons, Event.recorded]
    exact ⟨by rw [hnone]; exact h.ring, by rw [hnone]; exact h.ordered, by rw [hnone]; exact h.past⟩

/-! ## What the readers return -/

variable {l : List CheckInHistoryEntry}

theorem ok_collectEntries {start stop : Nat} :
    collectEntries id (historyRing s id).len (historyRing s id).head start stop e s = .ok (l, t) ↔
      l = (historyRing s id).read 50 start stop ∧ s = t := by
  rw [collectEntries, Tx.ok_foldEach_foldl (C := fun _ => True)
    (g := fun result i => result ++ ((historyRing s id).slots
      ((historyRing s id).place 50 i)).toList)]
  · rw [← List.flatMap_eq_foldl, ← List.filterMap_eq_flatMap_toList]
    exact ⟨fun h => h.2, fun h => ⟨fun _ _ => trivial, h⟩⟩
  · intro result i result' t
    simp only [Tx.ok_bind, ok_storageGet, Tx.ok_pure, true_and]
    constructor
    · rintro ⟨_, _, ⟨rfl, rfl⟩, rfl, rfl⟩
      exact ⟨rfl, rfl⟩
    · rintro ⟨rfl, rfl⟩
      exact ⟨_, _, ⟨rfl, rfl⟩, rfl, rfl⟩

theorem ok_getCheckInHistory : getCheckInHistory id e s = .ok (l, t) ↔
    l = (historyRing s id).read 50 0 (historyRing s id).len ∧ s = t := by
  rw [getCheckInHistory, Tx.bind_of_ok (ok_storageGet.mpr ⟨rfl, rfl⟩)]
  by_cases hnone : (historyRing s id).len = 0
  · rw [if_pos (by exact hnone), hnone, Tx.ok_pure, @eq_comm _ [] l]
    rfl
  · rw [if_neg (by exact hnone), Tx.bind_of_ok (ok_storageGet.mpr ⟨rfl, rfl⟩)]
    exact ok_collectEntries

/-- A page that starts within the history. -/
theorem getCheckInHistoryPage_within {page size : Nat} (hcap : (historyRing s id).len ≤ 50)
    (hsize : size ≤ u32Max) (hstart : page * size < (historyRing s id).len) :
    getCheckInHistoryPage id page size e s = .ok ((historyRing s id).read 50 (page * size)
      (min (page * size + size) (historyRing s id).len), s) := by
  -- a later page within 50 entries is short, so its end does not overflow
  have hend : page * size + size ≤ u32Max := by
    rcases Nat.eq_zero_or_pos page with rfl | hpage
    · simpa using hsize
    · have hle : size ≤ page * size := Nat.le_mul_of_pos_left size hpage
      have hbig : 100 ≤ u32Max := by decide
      omega
  rw [getCheckInHistoryPage, Tx.bind_of_ok (ok_storageGet.mpr ⟨rfl, rfl⟩),
    Tx.bind_of_ok (ok_u32.mpr ⟨by omega, rfl, rfl⟩), if_neg (by exact Nat.not_le.mpr hstart),
    Tx.bind_of_ok (ok_u32.mpr ⟨hend, rfl, rfl⟩), Tx.bind_of_ok (ok_storageGet.mpr ⟨rfl, rfl⟩)]
  exact ok_collectEntries.mpr ⟨rfl, rfl⟩

/-- A page that starts after the history is empty, unless its start overflows. -/
theorem getCheckInHistoryPage_beyond {page size : Nat}
    (hstart : (historyRing s id).len ≤ page * size)
    (h : getCheckInHistoryPage id page size e s = .ok (l, t)) : l = [] := by
  rw [getCheckInHistoryPage, Tx.bind_of_ok (ok_storageGet.mpr ⟨rfl, rfl⟩)] at h
  obtain ⟨start, u, hstart', h⟩ := Tx.ok_bind.mp h
  obtain ⟨_, rfl, rfl⟩ := ok_u32.mp hstart'
  rw [if_pos (by exact hstart), Tx.ok_pure] at h
  exact h.1.symm

theorem predictExpiry_of_interval {v : Vault} {interval : Nat} (hv : s.vault id = some v)
    (h : predictedInterval id v e s = .ok (interval, s)) :
    predictExpiry id e s = .ok (saturatingAdd64 v.lastCheckIn interval, s) := by
  rw [predictExpiry, Tx.bind_of_ok (ok_loadVault.mpr ⟨hv, rfl⟩), Tx.bind_of_ok h]
  rfl

theorem predictedInterval_few {v : Vault} (h : (historyRing s id).len < 2) :
    predictedInterval id v e s = .ok (v.checkInInterval, s) := by
  rw [predictedInterval, Tx.bind_of_ok (ok_storageGet.mpr ⟨rfl, rfl⟩),
    if_neg (by exact Nat.not_le.mpr h)]
  rfl

theorem predictedInterval_many {v : Vault} {first last : CheckInHistoryEntry} {r : Buffer
    CheckInHistoryEntry} (hr : historyRing s id = r) (h : 2 ≤ r.len)
    (hfirst : r.slots (r.place 50 (r.len - min r.len 10)) = some first)
    (hlast : r.slots (r.place 50 (r.len - 1)) = some last)
    (hle : first.timestamp ≤ last.timestamp) :
    predictedInterval id v e s =
      .ok (max ((last.timestamp - first.timestamp) / (min r.len 10 - 1)) 1, s) := by
  subst hr
  rw [predictedInterval, Tx.bind_of_ok (ok_storageGet.mpr ⟨rfl, rfl⟩), if_pos (by exact h),
    Tx.bind_of_ok (ok_storageGet.mpr ⟨rfl, rfl⟩)]
  -- the slots are those that the ring names
  refine (Tx.bind_of_ok (ok_storageGet.mpr ⟨hfirst, rfl⟩)).trans ?_
  refine (Tx.bind_of_ok (ok_storageGet.mpr ⟨hlast, rfl⟩)).trans ?_
  exact Tx.bind_of_ok (ok_subU.mpr ⟨hle, rfl, rfl⟩)

/-! ## Of every run -/

theorem HistoryKept.len_eq (h : HistoryKept id ks w) :
    (historyRing w.state id).len = min (recordedTimes id ks).length 50 := by
  simpa using h.ring.len_eq

theorem HistoryKept.read_eq (h : HistoryKept id ks w) {start stop : Nat}
    (hstop : stop ≤ (historyRing w.state id).len) :
    (historyRing w.state id).read 50 start stop =
      (((window 50 (recordedTimes id ks)).map CheckInHistoryEntry.mk).drop start).take
        (stop - start) := by
  rw [h.ring.read hstop, window_map]

theorem HistoryKept.history (h : HistoryKept id ks w) : getCheckInHistory id e w.state =
    .ok ((window 50 (recordedTimes id ks)).map CheckInHistoryEntry.mk, w.state) := by
  refine ok_getCheckInHistory.mpr ⟨?_, rfl⟩
  rw [h.read_eq le_rfl, List.drop_zero, Nat.sub_zero, List.take_of_length_le]
  rw [List.length_map, length_window, h.len_eq]

theorem HistoryKept.pages (h : HistoryKept id ks w) {size : Nat} (hsize : 0 < size)
    (hmax : size ≤ u32Max) : ∃ pages : List (List CheckInHistoryEntry),
      pages.flatten = (window 50 (recordedTimes id ks)).map CheckInHistoryEntry.mk ∧ [] ∉ pages ∧
      (∀ page l, pages[page]? = some l →
        getCheckInHistoryPage id page size e w.state = .ok (l, w.state)) ∧
      ∀ page l t, pages.length ≤ page →
        getCheckInHistoryPage id page size e w.state = .ok (l, t) → l = [] := by
  obtain ⟨pages, hflatten, hnonempty, hstart, hpages⟩ := exists_pages
    ((window 50 (recordedTimes id ks)).map CheckInHistoryEntry.mk) hsize
  have hwithin : ∀ page, page < pages.length ↔ page * size < (historyRing w.state id).len := by
    intro page
    rw [hstart, List.length_map, length_window, h.len_eq]
  refine ⟨pages, hflatten, hnonempty, fun page l hl => ?_, fun page l t hpage hread => ?_⟩
  · obtain ⟨hpage, -⟩ := List.getElem?_eq_some_iff.mp hl
    rw [getCheckInHistoryPage_within (h.len_eq ▸ Nat.min_le_right _ _) hmax ((hwithin page).mp hpage),
      h.read_eq (Nat.min_le_right _ _), hpages page l hl, List.take_eq_take_iff.mpr]
    rw [List.length_drop, List.length_map, length_window, h.len_eq]
    omega
  · exact getCheckInHistoryPage_beyond
      (Nat.not_lt.mp (mt (hwithin page).mpr (Nat.not_lt.mpr hpage))) hread

theorem HistoryKept.prediction (h : HistoryKept id ks w) {v : Vault}
    (hv : w.state.vault id = some v) (hmany : 2 ≤ (recordedTimes id ks).length) :
    ∃ first last, (window 10 (recordedTimes id ks)).head? = some first ∧
      (window 10 (recordedTimes id ks)).getLast? = some last ∧ first ≤ last ∧
      predictExpiry id e w.state = .ok (saturatingAdd64 v.lastCheckIn
        (max ((last - first) / (min (recordedTimes id ks).length 10 - 1)) 1), w.state) := by
  have hlen := h.len_eq
  have hlong : 2 ≤ (window 10 (recordedTimes id ks)).length := by
    rw [length_window]
    omega
  obtain ⟨first, last, hfirst, hlast, hle⟩ :=
    ends_of_pairwise (h.ordered.sublist window_sublist) hlong
  refine ⟨first, last, hfirst, hlast, hle, predictExpiry_of_interval hv ?_⟩
  have hcount : min (recordedTimes id ks).length 10 =
      min (historyRing w.state id).len 10 := by omega
  rw [hcount]
  refine @predictedInterval_many _ _ _ v ⟨first⟩ ⟨last⟩ _ rfl (by omega) ?_ ?_ hle
  · rw [h.ring.first_place (by decide) (by decide) (by omega), window_map, List.head?_map, hfirst]
    rfl
  · rw [h.ring.last_place (m := 10) (by decide) (by decide) (by omega), window_map,
      List.getLast?_map, hlast]
    rfl

/-- In every run, the readers see the last 50 times that were recorded, in order. The pages that
are not empty are the history; a page after it is empty, unless its start overflows. A
prediction takes the average of the times between the last ten. -/
theorem check_in_history_window (h₀ : Genesis w₀) (hrun : Run Step w₀ ks w) :
    (recordedTimes id ks).Pairwise (· ≤ ·) ∧
    getCheckInHistory id e w.state =
      .ok ((window 50 (recordedTimes id ks)).map CheckInHistoryEntry.mk, w.state) ∧
    (∀ size, 0 < size → size ≤ u32Max → ∃ pages : List (List CheckInHistoryEntry),
      pages.flatten = (window 50 (recordedTimes id ks)).map CheckInHistoryEntry.mk ∧ [] ∉ pages ∧
      (∀ page l, pages[page]? = some l →
        getCheckInHistoryPage id page size e w.state = .ok (l, w.state)) ∧
      ∀ page l t, pages.length ≤ page →
        getCheckInHistoryPage id page size e w.state = .ok (l, t) → l = []) ∧
    ∀ v, w.state.vault id = some v →
      ((recordedTimes id ks).length < 2 → predictExpiry id e w.state =
        .ok (saturatingAdd64 v.lastCheckIn v.checkInInterval, w.state)) ∧
      (2 ≤ (recordedTimes id ks).length → ∃ first last,
        (window 10 (recordedTimes id ks)).head? = some first ∧
        (window 10 (recordedTimes id ks)).getLast? = some last ∧ first ≤ last ∧
        predictExpiry id e w.state = .ok (saturatingAdd64 v.lastCheckIn
          (max ((last - first) / (min (recordedTimes id ks).length 10 - 1)) 1), w.state)) := by
  have h : HistoryKept id ks w := historyKept_of_run h₀ hrun
  have hlen := h.len_eq
  refine ⟨h.ordered, h.history, fun size hsize hmax => h.pages hsize hmax, fun v hv => ⟨?_, ?_⟩⟩
  · exact fun hfew => predictExpiry_of_interval hv (predictedInterval_few (by omega))
  · exact fun hmany => h.prediction hv hmany

end Run

/-- Two check-ins, and the prediction that the third comes after as long a time. -/
theorem check_in_history_two : ∃ w, Reachable w ∧
    getCheckInHistory 1 (signedBy [] 50) w.state = .ok ([⟨10⟩, ⟨40⟩], w.state) ∧
    predictExpiry 1 (signedBy [] 50) w.state = .ok (70, w.state) := by
  have hplay : (play (initialised ⟨8⟩ ⟨9⟩)
      [opensVault 1000,
        (signedBy [⟨1⟩] 10, .checkIn (.checkInWithPow 1 ⟨1⟩ (Vector.replicate 32 1) 0 0)),
        (signedBy [⟨1⟩] 40, .checkIn (.batchCheckInV2 [1] ⟨1⟩ (Vector.replicate 32 1)))]).any (fun w =>
      (w.state.vault 1).any fun v => decide (v.lastCheckIn = 40)) = true := by
    decide +kernel
  obtain ⟨w, hw, hchecks⟩ := (Option.any_eq_true _ _).mp hplay
  obtain ⟨v, hv, hlast⟩ := (Option.any_eq_true _ _).mp hchecks
  have hlast : v.lastCheckIn = 40 := of_decide_eq_true hlast
  have htimes : recordedTimes 1 (eventsOf
      [opensVault 1000,
        (signedBy [⟨1⟩] 10, .checkIn (.checkInWithPow 1 ⟨1⟩ (Vector.replicate 32 1) 0 0)),
        (signedBy [⟨1⟩] 40, .checkIn (.batchCheckInV2 [1] ⟨1⟩ (Vector.replicate 32 1)))]) =
      [10, 40] := by decide
  obtain ⟨-, hhistory, -, hpredict⟩ := @check_in_history_window
    (signedBy [] 50) _ _ _ 1 (genesis_initialised (by decide) (by decide)) (run_of_play hw)
  rw [htimes] at hhistory hpredict
  obtain ⟨first, last, hfirst, hlast', -, hprediction⟩ := (hpredict v hv).2 (by decide)
  obtain rfl : 10 = first := Option.some.inj hfirst
  obtain rfl : 40 = last := Option.some.inj hlast'
  refine ⟨w, reachable_of_play hw, hhistory, ?_⟩
  rw [hprediction, hlast]
  rfl

end Heirloom
