import Mathlib.Logic.Relation
import Mathlib.Logic.Function.Basic
import Mathlib.Data.List.Nodup

/-!
# Graphs of successor lists

`next a` lists the nodes that `a` points to, with repetitions.

Results:
1. `acyclic_update`: replacing the list of one node closes no cycle if no node of the
   new list reaches it.
2. `search_false`, `search_true`: a search with a stack, a list of visited nodes and a
   budget of nodes to visit. If it returns false the target is out of reach, and if it
   returns true it is in reach or more nodes are than the budget allows.
-/

namespace Digraph

open Relation

variable {ι : Type} {next : ι → List ι} {a b c x y target : ι}

def Edge (next : ι → List ι) (a b : ι) : Prop := b ∈ next a

abbrev Reaches (next : ι → List ι) : ι → ι → Prop := ReflTransGen (Edge next)

/-- No node is below itself. -/
def Acyclic (next : ι → List ι) : Prop := ∀ a, ¬ TransGen (Edge next) a a

/-- What is reached stays in a set that is closed under successors. -/
theorem Reaches.mem_of_closed {D : ι → Prop} (h : Reaches next a b) (ha : D a)
    (hclosed : ∀ x y, D x → y ∈ next x → D y) : D b := by
  induction h with
  | refl => exact ha
  | tail _ hlast ih => exact hclosed _ _ ih hlast

variable [DecidableEq ι]

/-! ## The list of one node replaced -/

section Replace

variable {ys : List ι}

/-- The way to a node does not need the list of that node. -/
theorem reaches_of_update (h : Reaches (Function.update next c ys) a c) : Reaches next a c := by
  induction h using ReflTransGen.head_induction_on with
  | refl => exact .refl
  | @head x y hxy _ ih =>
      by_cases heq : x = c
      · rw [heq]
      · unfold Edge at hxy
        rw [Function.update_of_ne heq] at hxy
        exact ih.head hxy

/-- A way in the new graph was one before or leads through the replaced list. -/
theorem transGen_update (h : TransGen (Edge (Function.update next c ys)) a b) :
    TransGen (Edge next) a b ∨ Reaches (Function.update next c ys) a c ∧
      TransGen (Edge (Function.update next c ys)) c b := by
  induction h using TransGen.head_induction_on with
  | @single x hxb =>
      by_cases heq : x = c
      · subst heq
        exact .inr ⟨.refl, .single hxb⟩
      · unfold Edge at hxb
        rw [Function.update_of_ne heq] at hxb
        exact .inl (.single hxb)
  | @head x y hxy hyb ih =>
      by_cases heq : x = c
      · subst heq
        exact .inr ⟨.refl, hyb.head hxy⟩
      · rcases ih with hold | ⟨hyc, hcb⟩
        · unfold Edge at hxy
          rw [Function.update_of_ne heq] at hxy
          exact .inl (hold.head hxy)
        · exact .inr ⟨hyc.head hxy, hcb⟩

theorem acyclic_update (h : Acyclic next) (hys : ∀ y ∈ ys, ¬ Reaches next y c) :
    Acyclic (Function.update next c ys) := by
  have hself : ¬ TransGen (Edge (Function.update next c ys)) c c := by
    intro hloop
    obtain ⟨y, hcy, hyc⟩ := TransGen.head'_iff.mp hloop
    unfold Edge at hcy
    rw [Function.update_self] at hcy
    exact hys y hcy (reaches_of_update hyc)
  intro x hloop
  rcases transGen_update hloop with hold | ⟨hxc, hcx⟩
  · exact h x hold
  · exact hself (hcx.trans_left hxc)

end Replace

/-! ## Search -/

/-- The rounds of a search up to the next node that has not been visited, which `visit`
goes on with. -/
def rounds (target : ι) (visited : List ι) (visit : ι → List ι → Bool) : List ι → Bool
  | [] => false
  | x :: pending =>
      if x = target then true
      else if x ∈ visited then rounds target visited visit pending
      else visit x pending

/-- The search with `left` nodes still to visit; it gives up at the next one. The stack
has its top first, so the last successor of a node is taken first. -/
def searchFrom (next : ι → List ι) (target : ι) : Nat → List ι → List ι → Bool
  | 0, visited, pending => rounds target visited (fun _ _ => true) pending
  | left + 1, visited, pending =>
      rounds target visited
        (fun x rest => searchFrom next target left (visited ++ [x]) ((next x).reverse ++ rest))
        pending

/-- Whether `target` is found from the roots, or more than `budget` nodes are. -/
def search (next : ι → List ι) (budget : Nat) (roots : List ι) (target : ι) : Bool :=
  searchFrom next target budget [] roots.reverse

section Search

variable {visited pending roots : List ι} {visit : ι → List ι → Bool} {left budget : Nat}

/-- The successors of visited nodes have been seen, and the target has not. -/
structure Explored (next : ι → List ι) (target : ι) (visited pending : List ι) : Prop where
  missed : target ∉ visited
  seen : ∀ x ∈ visited, ∀ y ∈ next x, y ∈ visited ∨ y ∈ pending

/-- A search that ends without the target has visited a closed set. -/
def Settled (next : ι → List ι) (target : ι) (visited pending : List ι) : Prop :=
  ∃ final, visited ⊆ final ∧ pending ⊆ final ∧ Explored next target final []

theorem rounds_false (h : rounds target visited visit pending = false)
    (hexplored : Explored next target visited pending)
    (hvisit : ∀ x rest, x ≠ target → x ∉ visited → visit x rest = false →
      Explored next target visited (x :: rest) → Settled next target visited (x :: rest)) :
    Settled next target visited pending := by
  induction pending with
  | nil => exact ⟨visited, List.Subset.refl _, List.nil_subset _, hexplored⟩
  | cons x rest ih =>
      unfold rounds at h
      split at h
      · cases h
      · next hne =>
        split at h
        · next hmem =>
          have hrest : Explored next target visited rest := by
            refine ⟨hexplored.missed, fun v hv y hy => ?_⟩
            rcases hexplored.seen v hv y hy with hseen | hpending
            · exact .inl hseen
            · rcases List.mem_cons.mp hpending with rfl | hlater
              · exact .inl hmem
              · exact .inr hlater
          obtain ⟨final, hvisited, hfinal, hclosed⟩ := ih h hrest
          exact ⟨final, hvisited, List.cons_subset.mpr ⟨hvisited hmem, hfinal⟩, hclosed⟩
        · next hnew => exact hvisit x rest hne hnew h hexplored

theorem searchFrom_false (h : searchFrom next target left visited pending = false)
    (hexplored : Explored next target visited pending) :
    Settled next target visited pending := by
  induction left generalizing visited pending with
  | zero => exact rounds_false h hexplored fun x rest _ _ hvisit _ => by cases hvisit
  | succ left ih =>
      refine rounds_false h hexplored fun x rest hne hnew hvisit hx => ?_
      have hnext : Explored next target (visited ++ [x]) ((next x).reverse ++ rest) := by
        constructor
        · rw [List.mem_append, List.mem_singleton]
          rintro (hmem | rfl)
          · exact hx.missed hmem
          · exact hne rfl
        · intro v hv y hy
          rcases List.mem_append.mp hv with hold | hlast
          · rcases hx.seen v hold y hy with hseen | hpending
            · exact .inl (List.mem_append_left _ hseen)
            · rcases List.mem_cons.mp hpending with rfl | hlater
              · exact .inl (List.mem_append_right _ List.mem_cons_self)
              · exact .inr (List.mem_append_right _ hlater)
          · obtain rfl := List.mem_singleton.mp hlast
            exact .inr (List.mem_append_left _ (List.mem_reverse.mpr hy))
      obtain ⟨final, hvisited, hpending, hclosed⟩ := ih hvisit hnext
      have hold : visited ⊆ final := fun v hv => hvisited (List.mem_append_left _ hv)
      have hhead : x ∈ final := hvisited (List.mem_append_right _ List.mem_cons_self)
      have htail : rest ⊆ final := fun v hv => hpending (List.mem_append_right _ hv)
      exact ⟨final, hold, List.cons_subset.mpr ⟨hhead, htail⟩, hclosed⟩

/-- A search that returns false has looked everywhere. -/
theorem search_false (h : search next budget roots target = false) :
    ∀ r ∈ roots, ¬ Reaches next r target := by
  intro r hr hreaches
  have hstart : Explored next target [] roots.reverse :=
    ⟨List.not_mem_nil, fun x hx => absurd hx List.not_mem_nil⟩
  obtain ⟨final, -, hroots, hclosed⟩ := searchFrom_false h hstart
  refine hclosed.missed (hreaches.mem_of_closed (hroots (List.mem_reverse.mpr hr)) ?_)
  intro x y hx hy
  exact (hclosed.seen x hx y hy).resolve_right List.not_mem_nil

/-- There are more than `n` nodes in `D`. -/
def MoreThan (n : Nat) (D : ι → Prop) : Prop :=
  ∃ nodes : List ι, nodes.Nodup ∧ n < nodes.length ∧ ∀ x ∈ nodes, D x

theorem rounds_true {D : ι → Prop} (h : rounds target visited visit pending = true)
    (hpending : ∀ x ∈ pending, D x) :
    D target ∨ ∃ x rest, x ∉ visited ∧ D x ∧ (∀ y ∈ rest, D y) ∧ visit x rest = true := by
  induction pending with
  | nil => cases h
  | cons x rest ih =>
      obtain ⟨hx, hrest⟩ := List.forall_mem_cons.mp hpending
      unfold rounds at h
      split at h
      · next heq => exact .inl (heq ▸ hx)
      split at h
      · exact ih h hrest
      · next hnew => exact .inr ⟨x, rest, hnew, hx, hrest, h⟩

omit [DecidableEq ι] in
theorem nodup_visit {D : ι → Prop} (hnodup : visited.Nodup) (hvisited : ∀ x ∈ visited, D x)
    (hnew : x ∉ visited) (hx : D x) :
    (visited ++ [x]).Nodup ∧ ∀ y ∈ visited ++ [x], D y := by
  refine ⟨List.nodup_append.mpr ⟨hnodup, List.nodup_singleton x, ?_⟩, fun y hy => ?_⟩
  · rintro v hv y hy rfl
    exact hnew (List.mem_singleton.mp hy ▸ hv)
  · rcases List.mem_append.mp hy with hold | hlast
    · exact hvisited y hold
    · exact List.mem_singleton.mp hlast ▸ hx

theorem searchFrom_true {D : ι → Prop} (hclosed : ∀ x y, D x → y ∈ next x → D y)
    (h : searchFrom next target left visited pending = true) (hnodup : visited.Nodup)
    (hvisited : ∀ x ∈ visited, D x) (hpending : ∀ x ∈ pending, D x) :
    D target ∨ MoreThan (visited.length + left) D := by
  induction left generalizing visited pending with
  | zero =>
      rcases rounds_true h hpending with hfound | ⟨x, rest, hnew, hx, -, -⟩
      · exact .inl hfound
      · obtain ⟨hnodup', hD⟩ := nodup_visit hnodup hvisited hnew hx
        exact .inr ⟨visited ++ [x], hnodup', by simp, hD⟩
  | succ left ih =>
      rcases rounds_true h hpending with hfound | ⟨x, rest, hnew, hx, hrest, hsearch⟩
      · exact .inl hfound
      · obtain ⟨hnodup', hD⟩ := nodup_visit hnodup hvisited hnew hx
        have hstack : ∀ y ∈ (next x).reverse ++ rest, D y := by
          intro y hy
          rcases List.mem_append.mp hy with hnext | hlater
          · exact hclosed x y hx (List.mem_reverse.mp hnext)
          · exact hrest y hlater
        have hresult := ih hsearch hnodup' hD hstack
        rwa [List.length_append, List.length_singleton, Nat.add_assoc, Nat.add_comm 1] at hresult

/-- A search that returns true has found the target, or too many nodes. -/
theorem search_true (h : search next budget roots target = true) :
    (∃ r ∈ roots, Reaches next r target) ∨
      MoreThan budget fun x => ∃ r ∈ roots, Reaches next r x := by
  have hresult := searchFrom_true (D := fun x => ∃ r ∈ roots, Reaches next r x)
    (fun x y ⟨r, hr, hx⟩ hy => ⟨r, hr, hx.tail hy⟩) h List.nodup_nil
    (fun x hx => absurd hx List.not_mem_nil)
    fun x hx => ⟨x, List.mem_reverse.mp hx, .refl⟩
  rwa [List.length_nil, Nat.zero_add] at hresult

end Search

end Digraph
