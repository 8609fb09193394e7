import Mathlib.Data.List.AList

/-!
# Maps of lists

A map that keeps a list of values under each key. `values` is every value of the map. What
a change does to one list it does to the values: `count_values_replace` says how often a
value occurs afterwards, whatever the list is replaced by.
-/

variable {κ α : Type} [DecidableEq κ]

/-- A list of values under each of finitely many keys. -/
abbrev Buckets (κ α : Type) := AList fun _ : κ => List α

namespace Buckets

variable {m : Buckets κ α} {k k' : κ} {l l' : List α} {a : α}

def values (m : Buckets κ α) : List α := m.entries.flatMap fun e => e.2

/-- The list of a key, empty when there is none. -/
def bucket (m : Buckets κ α) (k : κ) : List α := (m.lookup k).getD []

/-- Adds a value at the end of the list of its key, which it creates if need be. -/
def push (m : Buckets κ α) (k : κ) (a : α) : Buckets κ α := m.insert k (m.bucket k ++ [a])

/-- Replaces the list of a key that is present. -/
def replace (m : Buckets κ α) (k : κ) (l : List α) : Buckets κ α := AList.replace k l m

theorem bucket_of_lookup (h : m.lookup k = some l) : m.bucket k = l := by
  unfold bucket
  rw [h]
  rfl

theorem bucket_of_none (h : m.lookup k = none) : m.bucket k = [] := by
  unfold bucket
  rw [h]
  rfl

/-! ## Replacing a list -/

/-- A replacement happens in place. -/
theorem entries_replace (l' : List α) (h : m.lookup k = some l) : ∃ before after,
    m.entries = before ++ ⟨k, l⟩ :: after ∧
      (m.replace k l').entries = before ++ ⟨k, l'⟩ :: after := by
  have hentries : ∀ es : List (Σ _ : κ, List α), es.dlookup k = some l → ∃ before after,
      es = before ++ ⟨k, l⟩ :: after ∧ es.kreplace k l' = before ++ ⟨k, l'⟩ :: after := by
    intro es
    induction es with
    | nil =>
        intro hlookup
        cases hlookup
    | cons e es ih =>
        obtain ⟨k', l''⟩ := e
        intro hlookup
        rcases eq_or_ne k k' with rfl | hne
        · rw [List.dlookup_cons_eq] at hlookup
          obtain rfl := Option.some.inj hlookup
          refine ⟨[], es, rfl, ?_⟩
          exact List.lookmap_cons_some _ _ (by simp)
        · rw [List.dlookup_cons_ne es (⟨k', l''⟩ : Σ _ : κ, List α) hne] at hlookup
          obtain ⟨before, after, hes, hreplace⟩ := ih hlookup
          refine ⟨⟨k', l''⟩ :: before, after, by rw [hes, List.cons_append], ?_⟩
          rw [List.cons_append, ← hreplace]
          exact List.lookmap_cons_none _ _ (by simp [hne])
  exact hentries m.entries h

theorem lookup_replace (h : m.lookup k = some l) : (m.replace k l').lookup k = some l' := by
  obtain ⟨before, after, -, hreplace⟩ := entries_replace l' h
  refine AList.mem_lookup_iff.mpr ?_
  rw [hreplace]
  exact List.mem_append_right _ List.mem_cons_self

theorem lookup_replace_ne (h : m.lookup k = some l) (hne : k' ≠ k) :
    (m.replace k l').lookup k' = m.lookup k' := by
  obtain ⟨before, after, hentries, hreplace⟩ := entries_replace l' h
  refine Option.ext fun l'' => ?_
  show l'' ∈ (m.replace k l').lookup k' ↔ l'' ∈ m.lookup k'
  rw [AList.mem_lookup_iff, AList.mem_lookup_iff, hentries, hreplace]
  simp [hne]

theorem replace_self (h : m.lookup k = some l) : m.replace k l = m :=
  AList.ext (List.kreplace_self m.nodupKeys (AList.mem_lookup_iff.mp h))

theorem bucket_replace (h : m.lookup k = some l) : (m.replace k l').bucket k = l' :=
  bucket_of_lookup (lookup_replace h)

theorem bucket_replace_ne (h : m.lookup k = some l) (hne : k' ≠ k) :
    (m.replace k l').bucket k' = m.bucket k' := by
  unfold bucket
  rw [lookup_replace_ne h hne]

theorem count_values_replace {β : Type} [DecidableEq β] (l' : List α) (f : α → β) (b : β)
    (h : m.lookup k = some l) :
    ((m.replace k l').values.map f).count b + (l.map f).count b =
      (m.values.map f).count b + (l'.map f).count b := by
  obtain ⟨before, after, hentries, hreplace⟩ := entries_replace l' h
  unfold values
  rw [hentries, hreplace]
  simp only [List.flatMap_append, List.flatMap_cons, List.map_append, List.count_append]
  omega

/-! ## Adding a value -/

theorem bucket_push : (m.push k a).bucket k = m.bucket k ++ [a] :=
  bucket_of_lookup (AList.lookup_insert m)

theorem bucket_push_ne (hne : k' ≠ k) : (m.push k a).bucket k' = m.bucket k' := by
  unfold bucket push
  rw [AList.lookup_insert_ne hne]

theorem values_push_perm : (m.push k a).values.Perm (a :: m.values) := by
  have herased : (m.bucket k ++ (m.entries.kerase k).flatMap fun e => e.2).Perm m.values := by
    cases hlookup : m.lookup k with
    | none =>
        have habsent : k ∉ m.entries.keys := AList.lookup_eq_none.mp hlookup
        rw [bucket_of_none hlookup, List.kerase_of_notMem_keys habsent, List.nil_append]
        exact List.Perm.refl _
    | some l =>
        obtain ⟨l', before, after, hbefore, hentries, herase⟩ :=
          List.exists_of_kerase (AList.lookup_isSome.mp (hlookup ▸ rfl) : k ∈ m.entries.keys)
        have hentry : l' = l := by
          have hmem : (⟨k, l'⟩ : Σ _ : κ, List α) ∈ m.entries := by
            rw [hentries]
            exact List.mem_append_right _ List.mem_cons_self
          have hlookup' : m.lookup k = some l' := AList.mem_lookup_iff.mpr hmem
          exact Option.some.inj (hlookup'.symm.trans hlookup)
        rw [bucket_of_lookup hlookup, herase, ← hentry]
        unfold values
        rw [hentries, List.flatMap_append, List.flatMap_append, List.flatMap_cons]
        exact List.perm_append_comm_assoc _ _ _
  have hpush : (m.push k a).values =
      m.bucket k ++ a :: (m.entries.kerase k).flatMap fun e => e.2 := by
    unfold values push
    rw [AList.entries_insert, List.flatMap_cons, List.append_assoc]
    rfl
  rw [hpush]
  exact List.perm_middle.trans (herased.cons a)

end Buckets
