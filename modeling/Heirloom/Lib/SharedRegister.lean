import Mathlib.Data.Fintype.Basic
import Mathlib.Data.Fintype.Lattice
import Mathlib.Data.Fintype.Option
import Mathlib.Logic.Function.Basic

/-!
# Agreement over a shared register

Every node has a value of its own, and all share a register. A node that synchronises
compares its value with the register, and writes the one of higher rank into both; of two
values of one rank it takes its own. After two rounds all hold one value, whatever the
orders, exactly if the values leave no choice (`agrees_iff`): the values of the highest
rank are all the same, or all nodes start with one value that the register does not exceed.
-/

/-- A register and the values of the nodes. -/
structure SharedRegister (ι α : Type) where
  shared : α
  own : ι → α

namespace SharedRegister

variable {ι α ρ : Type} [DecidableEq ι] [LinearOrder ρ] {rank : α → ρ} {s t : SharedRegister ι α}
  {x y z e : α} {i j : ι} {order : List ι}

/-- The value of higher rank, the first one of two of the same rank. -/
def pick (rank : α → ρ) (x y : α) : α := if rank y ≤ rank x then x else y

/-- The node `i` synchronises. -/
def sync (rank : α → ρ) (s : SharedRegister ι α) (i : ι) : SharedRegister ι α :=
  ⟨pick rank (s.own i) s.shared, Function.update s.own i (pick rank (s.own i) s.shared)⟩

def syncAll (rank : α → ρ) (s : SharedRegister ι α) (order : List ι) : SharedRegister ι α :=
  order.foldl (sync rank) s

/-- Every node takes its turn once. -/
def IsRound (order : List ι) : Prop := order.Nodup ∧ ∀ i, i ∈ order

/-- The register and all nodes hold `e`. -/
def AllHold (s : SharedRegister ι α) (e : α) : Prop := s.shared = e ∧ ∀ i, s.own i = e

/-- Two rounds in any orders lead to one and the same value everywhere. -/
def Agrees (rank : α → ρ) (s : SharedRegister ι α) : Prop :=
  ∃ e, ∀ order order', IsRound order → IsRound order' →
    AllHold (syncAll rank s (order ++ order')) e

/-- The register or a node holds `x`. -/
def Holds (s : SharedRegister ι α) (x : α) : Prop := s.shared = x ∨ ∃ i, s.own i = x

/-- `e` is the only value of the highest rank. -/
structure IsTop (rank : α → ρ) (s : SharedRegister ι α) (e : α) : Prop where
  holds : s.Holds e
  le : ∀ x, s.Holds x → rank x ≤ rank e
  unique : ∀ x, s.Holds x → rank x = rank e → x = e

/-- The values leave no choice: one is the only one of the highest rank, or all nodes
have one that the register does not exceed. -/
def Decided (rank : α → ρ) (s : SharedRegister ι α) : Prop :=
  ∃ e, IsTop rank s e ∨ (∀ i, s.own i = e) ∧ rank s.shared ≤ rank e

/-! ## The choice between two values -/

theorem pick_self : pick rank x x = x := if_pos le_rfl

theorem pick_of_le (h : rank y ≤ rank x) : pick rank x y = x := if_pos h

theorem pick_of_lt (h : rank x < rank y) : pick rank x y = y := if_neg (not_le.mpr h)

theorem pick_choice : pick rank x y = x ∨ pick rank x y = y := by
  unfold pick
  split
  · exact .inl rfl
  · exact .inr rfl

theorem le_pick_left : rank x ≤ rank (pick rank x y) := by
  rcases le_or_gt (rank y) (rank x) with h | h
  · rw [pick_of_le h]
  · rw [pick_of_lt h]
    exact h.le

theorem pick_assoc : pick rank (pick rank x y) z = pick rank x (pick rank y z) := by
  rcases le_or_gt (rank y) (rank x) with hxy | hxy
  · rw [pick_of_le hxy]
    rcases le_or_gt (rank z) (rank y) with hyz | hyz
    · rw [pick_of_le hyz, pick_of_le hxy, pick_of_le (hyz.trans hxy)]
    · rw [pick_of_lt hyz]
  · rw [pick_of_lt hxy, pick_of_lt (hxy.trans_le le_pick_left)]

/-- The order of two values matters exactly if they are different and of one rank. -/
theorem pick_comm_iff : pick rank x y = pick rank y x ↔ (rank x = rank y → x = y) := by
  rcases lt_trichotomy (rank x) (rank y) with h | h | h
  · rw [pick_of_lt h, pick_of_le h.le]
    exact ⟨fun _ heq => absurd heq h.ne, fun _ => rfl⟩
  · rw [pick_of_le h.ge, pick_of_le h.le]
    exact ⟨fun heq _ => heq, fun hxy => hxy h⟩
  · rw [pick_of_le h.le, pick_of_lt h]
    exact ⟨fun _ heq => absurd heq h.ne', fun _ => rfl⟩

/-! ## One node -/

theorem own_sync_of_ne (h : j ≠ i) : (s.sync rank i).own j = s.own j :=
  Function.update_of_ne h _ _

theorem own_sync_self : (s.sync rank i).own i = pick rank (s.own i) s.shared :=
  Function.update_self i _ _

theorem Holds.of_sync (h : (s.sync rank i).Holds x) : s.Holds x := by
  have hpick : s.Holds (pick rank (s.own i) s.shared) := by
    have hchoice : pick rank (s.own i) s.shared = s.own i ∨
        pick rank (s.own i) s.shared = s.shared := pick_choice
    rcases hchoice with h | h
    · exact .inr ⟨i, h.symm⟩
    · exact .inl h.symm
  rcases h with rfl | ⟨j, rfl⟩
  · exact hpick
  · rcases eq_or_ne j i with rfl | hne
    · rw [own_sync_self]
      exact hpick
    · rw [own_sync_of_ne hne]
      exact .inr ⟨j, rfl⟩

/-- A node whose value no value exceeds keeps it. -/
theorem own_syncAll_of_top (hle : ∀ x, s.Holds x → rank x ≤ rank (s.own i)) :
    (s.syncAll rank order).own i = s.own i := by
  induction order generalizing s with
  | nil => rfl
  | cons j order ih =>
      have hkept : (s.sync rank j).own i = s.own i := by
        rcases eq_or_ne i j with rfl | hne
        · rw [own_sync_self, pick_of_le (hle _ (.inl rfl))]
        · exact own_sync_of_ne hne
      have hrest := ih (s := s.sync rank j) fun x hx => hkept ▸ hle x hx.of_sync
      exact hrest.trans hkept

/-! ## Values that leave no choice -/

omit [DecidableEq ι] in
theorem IsTop.pick (h : IsTop rank s e) (hx : s.Holds x) (hy : s.Holds y) (hxy : x = e ∨ y = e) :
    pick rank x y = e := by
  rcases hxy with rfl | rfl
  · exact pick_of_le (h.le y hy)
  · rcases (h.le x hx).lt_or_eq with hlt | heq
    · exact pick_of_lt hlt
    · rw [h.unique x hx heq, pick_self]

theorem IsTop.sync (h : IsTop rank s e) : IsTop rank (s.sync rank i) e := by
  refine ⟨?_, fun x hx => h.le x hx.of_sync, fun x hx => h.unique x hx.of_sync⟩
  rcases h.holds with hshared | ⟨j, hj⟩
  · exact .inl (h.pick (.inr ⟨i, rfl⟩) (.inl rfl) (.inr hshared))
  · rcases eq_or_ne j i with rfl | hne
    · exact .inl (h.pick (.inr ⟨j, rfl⟩) (.inl rfl) (.inl hj))
    · exact .inr ⟨j, (own_sync_of_ne hne).trans hj⟩

theorem IsTop.shared_sync (h : IsTop rank s e) (he : s.shared = e ∨ s.own i = e) :
    (s.sync rank i).shared = e :=
  h.pick (.inr ⟨i, rfl⟩) (.inl rfl) he.symm

/-- Once every node has had its turn the top value is in the register. -/
theorem IsTop.syncAll (h : IsTop rank s e) (he : s.shared = e ∨ ∃ i ∈ order, s.own i = e) :
    IsTop rank (s.syncAll rank order) e ∧ (s.syncAll rank order).shared = e := by
  induction order generalizing s with
  | nil =>
      rcases he with he | ⟨i, hi, -⟩
      · exact ⟨h, he⟩
      · cases hi
  | cons i order ih =>
      refine ih h.sync ?_
      rcases he with he | ⟨j, hj, hje⟩
      · exact .inl (h.shared_sync (.inl he))
      · rcases eq_or_ne j i with rfl | hne
        · exact .inl (h.shared_sync (.inr hje))
        · rcases List.mem_cons.mp hj with rfl | hj
          · exact absurd rfl hne
          · exact .inr ⟨j, hj, (own_sync_of_ne hne).trans hje⟩

/-- A node takes the top value from the register and keeps it. -/
theorem IsTop.own_syncAll (h : IsTop rank s e) (hshared : s.shared = e)
    (hi : i ∈ order ∨ s.own i = e) : (s.syncAll rank order).own i = e := by
  induction order generalizing s with
  | nil =>
      rcases hi with hi | hi
      · cases hi
      · exact hi
  | cons j order ih =>
      have hpick : SharedRegister.pick rank (s.own j) s.shared = e :=
        h.pick (.inr ⟨j, rfl⟩) (.inl rfl) (.inr hshared)
      refine ih h.sync (h.shared_sync (.inl hshared)) ?_
      rcases eq_or_ne i j with rfl | hne
      · exact .inr (own_sync_self.trans hpick)
      · rw [own_sync_of_ne hne]
        rcases hi with hi | hi
        · exact .inl ((List.mem_cons.mp hi).resolve_left hne)
        · exact .inr hi

theorem syncAll_append (order order' : List ι) :
    s.syncAll rank (order ++ order') = (s.syncAll rank order).syncAll rank order' :=
  List.foldl_append

theorem IsTop.agrees (h : IsTop rank s e) : Agrees rank s := by
  refine ⟨e, fun order order' horder horder' => ?_⟩
  have hturn : s.shared = e ∨ ∃ i ∈ order, s.own i = e :=
    h.holds.imp id fun ⟨i, hi⟩ => ⟨i, horder.2 i, hi⟩
  obtain ⟨htop, hshared⟩ := h.syncAll hturn
  rw [syncAll_append]
  exact ⟨(htop.syncAll (.inl hshared)).2, fun i => htop.own_syncAll hshared (.inl (horder'.2 i))⟩

theorem AllHold.sync (h : s.AllHold e) : (s.sync rank i).AllHold e := by
  obtain ⟨hshared, hown⟩ := h
  have hpick : SharedRegister.pick rank (s.own i) s.shared = e := by
    rw [hown, hshared, pick_self]
  refine ⟨hpick, fun j => ?_⟩
  rcases eq_or_ne j i with rfl | hne
  · exact own_sync_self.trans hpick
  · exact (own_sync_of_ne hne).trans (hown j)

theorem AllHold.syncAll (h : s.AllHold e) : (s.syncAll rank order).AllHold e := by
  induction order generalizing s with
  | nil => exact h
  | cons i order ih => exact ih h.sync

/-- Nodes with one value that the register does not exceed put it into the register. -/
theorem agrees_of_own (hown : ∀ i, s.own i = e) (hle : rank s.shared ≤ rank e) :
    Agrees rank s := by
  rcases isEmpty_or_nonempty ι with hempty | ⟨⟨i⟩⟩
  · exact ⟨s.shared, fun order order' _ _ => AllHold.syncAll ⟨rfl, isEmptyElim⟩⟩
  · refine ⟨e, fun order order' horder _ => ?_⟩
    rw [syncAll_append]
    refine AllHold.syncAll ?_
    cases order with
    | nil => cases horder.2 i
    | cons j order =>
        have hpick : SharedRegister.pick rank (s.own j) s.shared = e := by
          rw [hown, pick_of_le hle]
        refine AllHold.syncAll (s := s.sync rank j) ⟨hpick, fun k => ?_⟩
        rcases eq_or_ne k j with rfl | hne
        · exact own_sync_self.trans hpick
        · exact (own_sync_of_ne hne).trans (hown k)

/-! ## Values that leave a choice -/

section Choice

variable [Fintype ι]

omit [DecidableEq ι] in
theorem isRound_univ : IsRound (Finset.univ : Finset ι).toList :=
  ⟨Finset.nodup_toList _, fun i => Finset.mem_toList.mpr (Finset.mem_univ i)⟩

/-- Any node may take the first turn. -/
theorem isRound_cons (i : ι) : IsRound (i :: (Finset.univ.erase i).toList) := by
  refine ⟨List.nodup_cons.mpr ⟨?_, Finset.nodup_toList _⟩, fun j => ?_⟩
  · rw [Finset.mem_toList]
    exact Finset.notMem_erase i _
  · rcases eq_or_ne j i with rfl | hne
    · exact List.mem_cons_self
    · exact List.mem_cons_of_mem _
        (Finset.mem_toList.mpr (Finset.mem_erase.mpr ⟨hne, Finset.mem_univ j⟩))

omit [DecidableEq ι] in
theorem exists_highest (rank : α → ρ) (s : SharedRegister ι α) :
    ∃ m, s.Holds m ∧ ∀ x, s.Holds x → rank x ≤ rank m := by
  have hexists : ∃ top : Option ι, ∀ o : Option ι,
      rank (o.elim s.shared s.own) ≤ rank (top.elim s.shared s.own) :=
    Finite.exists_max fun o : Option ι => rank (o.elim s.shared s.own)
  obtain ⟨top, htop⟩ := hexists
  refine ⟨top.elim s.shared s.own, ?_, ?_⟩
  · cases top with
    | none => exact .inl rfl
    | some i => exact .inr ⟨i, rfl⟩
  · rintro x (rfl | ⟨i, rfl⟩)
    · exact htop none
    · exact htop (some i)

theorem decided_of_agrees (h : Agrees rank s) : Decided rank s := by
  obtain ⟨e, he⟩ := h
  obtain ⟨m, hm, hmax⟩ := exists_highest rank s
  -- a node with a value of the highest rank keeps it, so it is the common one
  have hkept : ∀ i, rank (s.own i) = rank m → s.own i = e := by
    intro i hi
    have hfinal := (he _ _ isRound_univ isRound_univ).2 i
    rwa [own_syncAll_of_top fun x hx => hi ▸ hmax x hx] at hfinal
  by_cases hunique : ∀ x, s.Holds x → rank x = rank m → x = m
  · exact ⟨m, .inl ⟨hm, hmax, hunique⟩⟩
  · obtain ⟨x, hx, hrank, hne⟩ : ∃ x, s.Holds x ∧ rank x = rank m ∧ x ≠ m := by
      simpa only [not_forall, exists_prop] using hunique
    obtain ⟨hshared, hsharede, hle⟩ :
        rank s.shared = rank m ∧ s.shared ≠ e ∧ rank m ≤ rank e := by
      rcases hx with rfl | ⟨i, rfl⟩
      · rcases hm with hm | ⟨j, rfl⟩
        · exact absurd hm hne
        · have hj := hkept j rfl
          exact ⟨hrank, fun h => hne (h.trans hj.symm), hj ▸ le_rfl⟩
      · have hi := hkept i hrank
        rcases hm with rfl | ⟨j, rfl⟩
        · exact ⟨rfl, fun h => hne (hi.trans h.symm), hi ▸ hrank.ge⟩
        · exact absurd (hi.trans (hkept j rfl).symm) hne
    refine ⟨e, .inr ⟨fun j => ?_, hshared.trans_le hle⟩⟩
    rcases (hmax _ (.inr ⟨j, rfl⟩)).lt_or_eq with hlt | heq
    · -- the first to take its turn would take the value of the register, and keep it
      exfalso
      have htaken : (s.sync rank j).own j = s.shared := by
        rw [own_sync_self, pick_of_lt (hshared ▸ hlt)]
      have hfinal := (he _ _ (isRound_cons j) isRound_univ).2 j
      have hkeeps : (syncAll rank (s.sync rank j)
          ((Finset.univ.erase j).toList ++ Finset.univ.toList)).own j = (s.sync rank j).own j :=
        own_syncAll_of_top fun x hx => by
          rw [htaken, hshared]
          exact hmax x hx.of_sync
      exact hsharede (htaken.symm.trans (hkeeps.symm.trans hfinal))
    · exact hkept j heq

/-- Two rounds agree in any orders exactly if the values leave no choice. -/
theorem agrees_iff : Agrees rank s ↔ Decided rank s := by
  refine ⟨decided_of_agrees, ?_⟩
  rintro ⟨e, htop | ⟨hown, hle⟩⟩
  · exact htop.agrees
  · exact agrees_of_own hown hle

end Choice

end SharedRegister
