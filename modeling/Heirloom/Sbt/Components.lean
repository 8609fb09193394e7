import Heirloom.Sbt.System

/-!
# Compositions are acyclic

The search before an update looks at the components as they are before it, and the
update replaces the whole list of one token while others may already name that token.

Results:
1. `composition_acyclic`: in every reachable state no token is below itself and
   components are minted; and in every state the search is exact up to its bound.
2. `composition_acyclic_run`: a token with a component.
-/

namespace Heirloom.Sbt

open Transaction TypedStore Runs Digraph

section Components

variable {e : Env} {s t : State} {c : Call} {id : Nat} {componentIds : List Nat}

theorem componentsOf_put_self :
    componentsOf (s.put (.compositionComponents id) ⟨componentIds⟩) =
      Function.update (componentsOf s) id componentIds := by
  funext x
  unfold componentsOf
  by_cases heq : x = id
  · subst heq
    rw [Store.get_put_self, Function.update_self]
  · rw [Store.get_put_of_ne (by simpa using heq), Function.update_of_ne heq]

/-- An update replaces the components of a token by minted tokens that do not reach it. -/
theorem setCompositionComponents_wp :
    wp (setCompositionComponents id componentIds) (fun _ t =>
      s.get (.owner id) ≠ none ∧
      (∀ x ∈ componentIds, s.get (.owner x) ≠ none ∧ ¬ Reaches (componentsOf s) x id) ∧
      t = s.put (.compositionComponents id) ⟨componentIds⟩) e s := by
  simp only [setCompositionComponents, compositionReachesAny, Tx.wp_bind, Tx.wp_ensure,
    Tx.wp_read, wp_requireOwner]
  rintro owner howner - ⟨-, hsearch⟩
  have hloop : wp (Tx.forEach componentIds fun x => do let _ ← loadOwner x)
      (fun _ t => t = s ∧ ∀ x ∈ componentIds, s.get (.owner x) ≠ none) e s :=
    Tx.wp_forEach_checks fun x => by simp +contextual
  refine Tx.wp_mono hloop ?_
  rintro _ _ ⟨rfl, hminted⟩
  rw [wp_save]
  exact ⟨by simp [howner], fun x hx => ⟨hminted x hx, search_false hsearch x hx⟩, rfl⟩

/-- What a step does to the components. -/
theorem Step.components (h : Step s (e, c) t) :
    componentsOf t = componentsOf s ∨
      ∃ id componentIds, c = .setCompositionComponents id componentIds ∧
        s.get (.owner id) ≠ none ∧
        (∀ x ∈ componentIds, s.get (.owner x) ≠ none ∧ ¬ Reaches (componentsOf s) x id) ∧
        componentsOf t = Function.update (componentsOf s) id componentIds := by
  cases c with
  | setCompositionComponents id componentIds =>
      obtain ⟨howner, hids, rfl⟩ := setCompositionComponents_wp () t h
      exact .inr ⟨id, componentIds, rfl, howner, hids, componentsOf_put_self⟩
  | _ =>
      refine .inl (funext fun x => ?_)
      unfold componentsOf
      rw [h.get_eq (by simp [Call.areas])]

/-- No token is below itself, and tokens in a composition are minted. -/
structure Composed (s : State) : Prop where
  acyclic : Acyclic (componentsOf s)
  minted : ∀ x y, y ∈ componentsOf s x → s.get (.owner x) ≠ none ∧ s.get (.owner y) ≠ none

theorem composed_empty : Composed .empty := by
  refine ⟨fun x hloop => ?_, fun x y hy => by cases hy⟩
  obtain ⟨y, hedge, -⟩ := Relation.TransGen.head'_iff.mp hloop
  cases hedge

theorem Composed.step {k : Env × Call} (hs : Composed s) (h : Step s k t) : Composed t := by
  obtain ⟨e, c⟩ := k
  rcases h.components with hkept | ⟨id, componentIds, -, howner, hids, hnew⟩
  · constructor
    · rw [hkept]
      exact hs.acyclic
    · intro x y hy
      rw [hkept] at hy
      exact (hs.minted x y hy).imp h.owner_kept h.owner_kept
  · constructor
    · rw [hnew]
      exact acyclic_update hs.acyclic fun x hx => (hids x hx).2
    · intro x y hy
      rw [hnew] at hy
      by_cases heq : x = id
      · subst heq
        rw [Function.update_self] at hy
        exact ⟨h.owner_kept howner, h.owner_kept (hids y hy).1⟩
      · rw [Function.update_of_ne heq] at hy
        exact (hs.minted x y hy).imp h.owner_kept h.owner_kept

theorem Reachable.composed (h : Reachable s) : Composed s := by
  obtain ⟨ks, hrun⟩ := h
  exact hrun.invariant composed_empty fun _ _ _ hs hk => hs.step hk

/-- In every reachable state no token is below itself and what is named as a component
is minted. In every state the search ends; if it returns false no root reaches the
target, and if it returns true a root does or more than 32 tokens are within reach. -/
theorem composition_acyclic :
    (∀ s, Reachable s → Acyclic (componentsOf s) ∧
      ∀ x y, y ∈ componentsOf s x → s.get (.owner x) ≠ none ∧ s.get (.owner y) ≠ none) ∧
    ∀ (s : State) e roots target, ∃ b, compositionReachesAny roots target e s = .ok (b, s) ∧
      (b = false → ∀ r ∈ roots, ¬ Reaches (componentsOf s) r target) ∧
      (b = true → (∃ r ∈ roots, Reaches (componentsOf s) r target) ∨
        MoreThan maxCompositionDepth fun x => ∃ r ∈ roots, Reaches (componentsOf s) r x) :=
  ⟨fun _ hs => ⟨hs.composed.acyclic, hs.composed.minted⟩,
    fun _ _ _ _ => ⟨_, rfl, search_false, search_true⟩⟩

/-- Token 0 with token 1 as its component. -/
theorem composition_acyclic_run :
    Acyclic (componentsOf ((tokensState 2).put (.compositionComponents 0) ⟨[1]⟩)) := by
  obtain ⟨ks, hrun⟩ := reachable_tokensState (n := 2) (by decide)
  have hstep : Step (tokensState 2) (signed, .setCompositionComponents 0 [1])
      ((tokensState 2).put (.compositionComponents 0) ⟨[1]⟩) := rfl
  exact (composition_acyclic.1 _ ⟨_, hrun.next hstep⟩).1

end Components

end Heirloom.Sbt
