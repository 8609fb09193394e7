import Heirloom.Results.Indexes
import Heirloom.Lib.RingBuffer

/-!
# Pages of vault numbers

The vaults of an owner or a beneficiary are read page by page, all of them or those of one status.
The helper that cuts out a page computes its start with a saturating multiplication and its end
with an addition that may overflow.

* `paginate_ok`: a page is what its place in the list says, and no overflow is possible.
* `pages_partition`: the pages of each reader are the list, cut into pieces of one size.
-/

namespace Heirloom

open Transaction TypedStore RingBuffer

/-! ## The readers -/

/-- The loop runs while its position is in the list and in the page. -/
def paginate (all : List Nat) (page pageSize : Nat) : Contract (List Nat) := do
  if pageSize = 0 then return []
  else do
    let start := saturatingMul64 page pageSize
    let len := all.length
    if start < len then do
      let stop ← u64 (start + pageSize)
      foldEach (List.range' start (min stop len - start)) [] fun result i => do
        let vaultId ← fromSome all[i % 2 ^ 32]? .trap
        return result ++ [vaultId]
    else return []

/-- The loop of the readers over the vaults of one status. -/
def collectWithStatus (all : List Nat) (status : ReleaseStatus) : Contract (List Nat) :=
  foldEach all [] fun result vaultId => do
    let found ← tryLoadVault vaultId
    match found with
    | some vault => if vault.status = status then return result ++ [vaultId] else return result
    | none => return result

/-- What the readers have in common. -/
def pageWithStatus (load : Contract (List Nat)) (statusFilter : Option ReleaseStatus)
    (page pageSize : Nat) : Contract (List Nat) := do
  let all ← load
  let filtered ← match statusFilter with
    | some status => collectWithStatus all status
    | none => pure all
  paginate filtered page pageSize

def getVaultsByOwner (owner : Address) (statusFilter : Option ReleaseStatus)
    (page pageSize : Nat) : Contract (List Nat) :=
  pageWithStatus (loadOwnerVaultIds owner) statusFilter page pageSize

def getVaultsByBeneficiary (beneficiary : Address) (statusFilter : Option ReleaseStatus)
    (page pageSize : Nat) : Contract (List Nat) :=
  pageWithStatus (loadBeneficiaryVaultIds beneficiary) statusFilter page pageSize

def getActiveVaultsByBeneficiary (beneficiary : Address) (page pageSize : Nat) :
    Contract (List Nat) :=
  pageWithStatus (loadBeneficiaryVaultIds beneficiary) (some .locked) page pageSize

/-! ## Pages -/

section Pages

variable {e : Env} {s t : State} {all l : List Nat} {page size : Nat} {status : ReleaseStatus}

/-- The vaults of one status among those listed, or all of them. -/
def State.listed (s : State) (ids : List Nat) (statusFilter : Option ReleaseStatus) : List Nat :=
  ids.filter fun id => statusFilter.all fun status => (s.vault id).any (·.status = status)

theorem ok_collectWithStatus : collectWithStatus all status e s = .ok (l, t) ↔
    l = s.listed all (some status) ∧ s = t := by
  rw [collectWithStatus, Tx.ok_foldEach_foldl (C := fun _ => True) (g := fun result id => result ++
    (Option.guard (fun id => (s.vault id).any (·.status = status)) id).toList)]
  · rw [← List.flatMap_eq_foldl, ← List.filterMap_eq_flatMap_toList, List.filterMap_eq_filter]
    exact ⟨fun h => h.2, fun h => ⟨fun _ _ => trivial, h⟩⟩
  · intro result i result' t
    rw [Tx.bind_of_ok (ok_tryLoadVault.mpr ⟨rfl, rfl⟩), true_and, Option.guard]
    cases s.vault i with
    | none => simp [@eq_comm _ result']
    | some v =>
        by_cases hstatus : v.status = status
        · simp [hstatus, @eq_comm _ result']
        · simp [hstatus, @eq_comm _ result']

theorem filterMap_getElem? {start count : Nat} (h : start + count ≤ all.length) :
    (List.range' start count).filterMap (all[·]?) = (all.drop start).take count := by
  induction count generalizing start with
  | zero => simp
  | succ count ih =>
      have hstart : start < all.length := by omega
      rw [List.range'_succ, List.filterMap_cons_some (List.getElem?_eq_getElem hstart),
        ih (by omega), List.drop_eq_getElem_cons hstart, List.take_succ_cons]

/-- Neither the product nor the sum overflows, for any page of a list that exists. -/
theorem paginate_ok (hall : all.length ≤ u32Max) (hpage : page ≤ u32Max) (hsize : size ≤ u32Max) :
    paginate all page size e s = .ok ((all.drop (page * size)).take size, s) := by
  have hproduct : page * size ≤ u32Max * u32Max := Nat.mul_le_mul hpage hsize
  have hroom : u32Max * u32Max + u32Max ≤ u64Max := by decide
  have hstart : saturatingMul64 page size = page * size := Nat.min_eq_left (by omega)
  unfold paginate
  split
  · rename_i hzero
    rw [hzero, List.take_zero]
    rfl
  · rw [hstart]
    dsimp only
    split
    · rename_i hlt
      rw [Tx.bind_of_ok (ok_u64.mpr ⟨by omega, rfl, rfl⟩)]
      rw [Tx.ok_foldEach_foldl (C := fun i => (all[i % 2 ^ 32]?).isSome)
        (g := fun result i => result ++ (all[i % 2 ^ 32]?).toList)]
      · have hinside : ∀ i ∈ List.range' (page * size)
            (min (page * size + size) all.length - page * size), i % 2 ^ 32 = i ∧ i < all.length := by
          intro i hi
          have hbound : all.length < 2 ^ 32 := Nat.lt_succ_of_le hall
          have hi' := List.mem_range'_1.mp hi
          have hlt' : i < all.length := by omega
          exact ⟨Nat.mod_eq_of_lt (Nat.lt_trans hlt' hbound), hlt'⟩
        refine ⟨fun i hi => ?_, ?_, rfl⟩
        · obtain ⟨hmod, hi'⟩ := hinside i hi
          rw [hmod, List.getElem?_eq_getElem hi']
          rfl
        · rw [← List.flatMap_eq_foldl, ← List.filterMap_eq_flatMap_toList,
            List.filterMap_congr fun i hi => by rw [(hinside i hi).1], filterMap_getElem? (by omega),
            List.take_eq_take_iff, List.length_drop]
          omega
      · intro result i result' t
        simp only [Tx.ok_bind, Tx.ok_fromSome, Tx.ok_pure]
        cases all[i % 2 ^ 32]? with
        | none => simp
        | some id => simp [eq_comm]
    · rename_i hge
      rw [List.drop_of_length_le (Nat.not_lt.mp hge), List.take_nil]
      rfl

/-- The pages that `read` gives are the list in order: all are full but the last that is not empty,
and whatever page is asked for, none fails. -/
def Partition (read : Nat → Contract (List Nat)) (size : Nat) (all : List Nat) (e : Env)
    (s : State) : Prop :=
  ∃ pages : List (List Nat), pages.flatten = all ∧ [] ∉ pages ∧ pages.length ≤ u32Max ∧
    (∀ page l, pages[page]? = some l → read page e s = .ok (l, s)) ∧
    (∀ page ≤ u32Max, pages.length ≤ page → read page e s = .ok ([], s)) ∧
    ∀ page l, pages[page]? = some l → page + 1 < pages.length → l.length = size

/-- Pages at their places are a partition. -/
theorem partition_of_pages {read : Nat → Contract (List Nat)} (hsize : 0 < size)
    (hall : all.length ≤ u32Max)
    (h : ∀ page ≤ u32Max, read page e s = .ok ((all.drop (page * size)).take size, s)) :
    Partition read size all e s := by
  obtain ⟨pages, hflatten, hnonempty, hwithin, hpages⟩ := exists_pages all hsize
  have hcount : pages.length ≤ u32Max := by
    refine Nat.le_trans (Nat.not_lt.mp fun hlt => ?_) hall
    have hstart := (hwithin all.length).mp hlt
    exact Nat.not_lt.mpr (Nat.le_mul_of_pos_right _ hsize) hstart
  refine ⟨pages, hflatten, hnonempty, hcount, fun page l hl => ?_, fun page hpage hle => ?_,
    fun page l hl hnext => ?_⟩
  · obtain ⟨hlt, -⟩ := List.getElem?_eq_some_iff.mp hl
    rw [h page (Nat.le_trans (Nat.le_of_lt hlt) hcount), ← hpages page l hl]
  · have hbeyond := Nat.not_lt.mp (mt (hwithin page).mpr (Nat.not_lt.mpr hle))
    rw [h page hpage, List.drop_of_length_le hbeyond, List.take_nil]
  · have hstart := (hwithin (page + 1)).mp hnext
    rw [Nat.succ_mul] at hstart
    rw [hpages page l hl, List.length_take, List.length_drop]
    omega

theorem pageWithStatus_ok {load : Contract (List Nat)} {statusFilter : Option ReleaseStatus}
    (hload : load e s = .ok (all, s)) :
    pageWithStatus load statusFilter page size e s =
      paginate (s.listed all statusFilter) page size e s := by
  unfold pageWithStatus
  rw [Tx.bind_of_ok hload]
  cases statusFilter with
  | none =>
      have hlisted : s.listed all none = all := List.filter_eq_self.mpr fun _ _ => rfl
      rw [hlisted]
      rfl
  | some status => exact Tx.bind_of_ok (ok_collectWithStatus.mpr ⟨rfl, rfl⟩)

theorem partition_withStatus {load : Contract (List Nat)} {statusFilter : Option ReleaseStatus}
    (hpos : 0 < size) (hsize : size ≤ u32Max) (hall : all.length ≤ u32Max)
    (hload : load e s = .ok (all, s)) :
    Partition (pageWithStatus load statusFilter · size) size (s.listed all statusFilter) e s := by
  have hlisted : (s.listed all statusFilter).length ≤ u32Max :=
    Nat.le_trans (List.length_filter_le _ _) hall
  refine partition_of_pages hpos hlisted fun page hpage => ?_
  rw [pageWithStatus_ok hload, paginate_ok hlisted hpage hsize]

/-- A page size that is not zero cuts any list into pages, and so the lists of every reader. -/
theorem pages_partition (hpos : 0 < size) (hsize : size ≤ u32Max) (e : Env) (s : State) :
    (∀ all : List Nat, all.length ≤ u32Max → Partition (paginate all · size) size all e s) ∧
    (∀ owner statusFilter, (s.owned owner).length ≤ u32Max →
      Partition (getVaultsByOwner owner statusFilter · size) size
        (s.listed (s.owned owner) statusFilter) e s) ∧
    (∀ beneficiary statusFilter, (s.inherited beneficiary).length ≤ u32Max →
      Partition (getVaultsByBeneficiary beneficiary statusFilter · size) size
        (s.listed (s.inherited beneficiary) statusFilter) e s) ∧
    ∀ beneficiary, (s.inherited beneficiary).length ≤ u32Max →
      Partition (getActiveVaultsByBeneficiary beneficiary · size) size
        (s.listed (s.inherited beneficiary) (some .locked)) e s := by
  have howned : ∀ owner, loadOwnerVaultIds owner e s = .ok (s.owned owner, s) := fun _ => rfl
  have hinherited : ∀ beneficiary,
      loadBeneficiaryVaultIds beneficiary e s = .ok (s.inherited beneficiary, s) := fun _ => rfl
  exact ⟨fun all hall => partition_of_pages hpos hall fun _ hpage => paginate_ok hall hpage hsize,
    fun _ _ hall => partition_withStatus hpos hsize hall (howned _),
    fun _ _ hall => partition_withStatus hpos hsize hall (hinherited _),
    fun _ hall => partition_withStatus hpos hsize hall (hinherited _)⟩

theorem pages_partition_five : Partition (paginate [3, 1, 4, 1, 5] · 2) 2 [3, 1, 4, 1, 5]
    (signedBy [] 0) (initialised ⟨8⟩ ⟨9⟩).state :=
  (pages_partition (by decide) (by decide) (signedBy [] 0) (initialised ⟨8⟩ ⟨9⟩).state).1 _
    (by decide)

end Pages

end Heirloom
