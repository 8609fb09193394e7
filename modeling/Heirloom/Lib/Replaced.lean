/-!
# Lists of which one element is replaced

The clients of a system are a list; one of them takes a step and the others stay. The lemmas
say what becomes of a property of all clients, of the values that clients show, and of
membership when `l₁ ++ a :: l₂` becomes `l₁ ++ b :: l₂` or `l₁ ++ l₂`.
-/

namespace Replaced

variable {α β : Type} {l l₁ l₂ : List α} {a b c : α}

theorem mem_middle (h : l = l₁ ++ a :: l₂) : a ∈ l := by
  rw [h]
  exact List.mem_append_right _ List.mem_cons_self

/-- The others have been there before. -/
theorem mem_rest (h : l = l₁ ++ a :: l₂) (hc : c ∈ l₁ ++ l₂) : c ∈ l := by
  rw [h]
  rcases List.mem_append.mp hc with hc | hc
  · exact List.mem_append_left _ hc
  · exact List.mem_append_right _ (List.mem_cons_of_mem _ hc)

theorem mem_replaced (h : l = l₁ ++ a :: l₂) (hc : c ∈ l₁ ++ b :: l₂) : c ∈ l ∨ c = b := by
  rcases List.mem_append.mp hc with hc | hc
  · exact .inl (mem_rest h (List.mem_append_left _ hc))
  · rcases List.mem_cons.mp hc with rfl | hc
    · exact .inr rfl
    · exact .inl (mem_rest h (List.mem_append_right _ hc))

/-- What holds of the others and of the new element holds of all. -/
theorem forall_replaced {P : α → Prop} (hothers : ∀ d ∈ l₁ ++ l₂, P d) (hb : P b) :
    ∀ d ∈ l₁ ++ b :: l₂, P d := by
  intro d hd
  rcases List.mem_append.mp hd with hd | hd
  · exact hothers d (List.mem_append_left _ hd)
  · rcases List.mem_cons.mp hd with rfl | hd
    · exact hb
    · exact hothers d (List.mem_append_right _ hd)

/-- The elements that are counted, one of them apart. -/
theorem countP_middle {p : α → Bool} :
    (l₁ ++ a :: l₂).countP p = (l₁ ++ l₂).countP p + (p a).toNat := by
  rw [List.countP_append, List.countP_cons, List.countP_append, ← Nat.add_assoc]
  cases p a <;> rfl

/-- The new element shows what the old one did. -/
theorem filterMap_replaced {f : α → Option β} (h : f b = f a) :
    (l₁ ++ b :: l₂).filterMap f = (l₁ ++ a :: l₂).filterMap f := by
  rw [List.filterMap_append, List.filterMap_append, List.filterMap_cons, List.filterMap_cons, h]

/-- Only the one element shows anything. -/
theorem filterMap_alone {f : α → Option β} (h : ∀ d ∈ l₁ ++ l₂, f d = none) :
    (l₁ ++ b :: l₂).filterMap f = (f b).toList := by
  have h₁ : l₁.filterMap f = [] :=
    List.filterMap_eq_nil_iff.mpr fun d hd => h d (List.mem_append_left _ hd)
  have h₂ : l₂.filterMap f = [] :=
    List.filterMap_eq_nil_iff.mpr fun d hd => h d (List.mem_append_right _ hd)
  rw [List.filterMap_append, h₁, List.filterMap_cons, h₂]
  cases f b <;> rfl

/-- If one element shows something, and at most one does, the others do not. -/
theorem alone_of_length_le {f : α → Option β} {x : β} (ha : f a = some x)
    (h : ((l₁ ++ a :: l₂).filterMap f).length ≤ 1) : ∀ d ∈ l₁ ++ l₂, f d = none := by
  rw [List.filterMap_append, List.filterMap_cons_some ha, List.length_append,
    List.length_cons] at h
  have hnone : ((l₁ ++ l₂).filterMap f).length = 0 := by
    rw [List.filterMap_append, List.length_append]
    omega
  exact List.filterMap_eq_nil_iff.mp (List.length_eq_zero_iff.mp hnone)

end Replaced
