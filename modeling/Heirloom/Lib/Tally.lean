import Mathlib.Data.Multiset.AddSub
import Mathlib.Data.Multiset.UnionInter

/-!
# Things that are handed in and passed on

A system takes things in, each under a new name, and passes them from place to place. The tally
has the names taken in and those that are in some place. While a step keeps everything
(`Kept`), whatever was handed in is in one place; what a step loses (`Lost`) is missing from
then on (`Kept.missing`, `Lost.missing`).
-/

variable {κ : Type}

/-- The names handed in, and the names in the places of the system. -/
structure Tally (κ : Type) where
  handed : List κ
  present : Multiset κ

namespace Tally

/-- Nothing is lost: new names come in, or things are passed on. -/
inductive Kept : Tally κ → Tally κ → Prop
  | handIn {s : Tally κ} {new : List κ} : new.Nodup → (∀ x ∈ new, x ∉ s.handed) →
      Kept s ⟨new ++ s.handed, (new : Multiset κ) + s.present⟩
  | pass {s : Tally κ} : Kept s s

/-- Something is lost. -/
def Lost (s t : Tally κ) : Prop :=
  t.handed = s.handed ∧ ∃ gone, gone ≠ 0 ∧ s.present = gone + t.present

/-- Every name is in one place at most, and has been handed in. -/
structure Sound (s : Tally κ) : Prop where
  nodup : s.present.Nodup
  known : ∀ x ∈ s.present, x ∈ s.handed

/-- Something that was handed in is nowhere. -/
def Missing (s : Tally κ) : Prop := ∃ x ∈ s.handed, x ∉ s.present

variable {s t : Tally κ}

theorem Kept.sound (h : Kept s t) (hs : s.Sound) : t.Sound := by
  cases h with
  | pass => exact hs
  | @handIn new hnew hfresh =>
      refine ⟨?_, fun x hx => ?_⟩
      · refine Multiset.nodup_add.mpr ⟨Multiset.coe_nodup.mpr hnew, hs.nodup, ?_⟩
        exact Multiset.disjoint_left.mpr fun hx hpresent =>
          hfresh _ (Multiset.mem_coe.mp hx) (hs.known _ hpresent)
      · rcases Multiset.mem_add.mp hx with hx | hx
        · exact List.mem_append_left _ (Multiset.mem_coe.mp hx)
        · exact List.mem_append_right _ (hs.known x hx)

theorem Lost.sound (h : Lost s t) (hs : s.Sound) : t.Sound := by
  obtain ⟨hhanded, gone, -, hpresent⟩ := h
  refine ⟨?_, fun x hx => ?_⟩
  · exact Multiset.nodup_of_le (hpresent ▸ Multiset.le_add_left _ _) hs.nodup
  · rw [hhanded]
    refine hs.known x ?_
    rw [hpresent]
    exact Multiset.mem_add.mpr (.inr hx)

/-- What is missing does not come back. -/
theorem Kept.missing (h : Kept s t) (hs : s.Missing) : t.Missing := by
  cases h with
  | pass => exact hs
  | @handIn new hnew hfresh =>
      obtain ⟨x, hx, hnowhere⟩ := hs
      refine ⟨x, List.mem_append_right _ hx, fun hpresent => ?_⟩
      rcases Multiset.mem_add.mp hpresent with hmem | hmem
      · exact hfresh x (Multiset.mem_coe.mp hmem) hx
      · exact hnowhere hmem

/-- What is lost is missing. -/
theorem Lost.missing (h : Lost s t) (hs : s.Sound) : t.Missing := by
  obtain ⟨hhanded, gone, hgone, hpresent⟩ := h
  obtain ⟨x, hx⟩ := Multiset.exists_mem_of_ne_zero hgone
  refine ⟨x, ?_, ?_⟩
  · rw [hhanded]
    refine hs.known x ?_
    rw [hpresent]
    exact Multiset.mem_add.mpr (.inl hx)
  · have hnodup := hs.nodup
    rw [hpresent] at hnodup
    exact Multiset.disjoint_left.mp (Multiset.nodup_add.mp hnodup).2.2 hx

/-- While everything is kept nothing goes missing. -/
theorem Kept.not_missing (h : Kept s t) (hs : ¬ s.Missing) : ¬ t.Missing := by
  cases h with
  | pass => exact hs
  | handIn =>
      rintro ⟨x, hx, hnowhere⟩
      rcases List.mem_append.mp hx with hx | hx
      · exact hnowhere (Multiset.mem_add.mpr (.inl (Multiset.mem_coe.mpr hx)))
      · exact hs ⟨x, hx, fun hpresent => hnowhere (Multiset.mem_add.mpr (.inr hpresent))⟩

end Tally
