import Heirloom.Lib.Unfolding
import Heirloom.Sbt.Components

/-!
# What a resolution returns

An update looks for a way back to the token and stops at 32 tokens. A resolution never
forgets a token that it has met, so it also stops at one that two others have in common.

Results:
1. `resolveCompositionInner_ok`: a resolution succeeds exactly on a tree that is not too
   deep, and then lists the tree.
2. `composition_resolves`: for every minted token of a reachable state, a resolution
   returns what is below it exactly if no two walks lead to the same token and none is
   longer than 31 steps.
3. `composition_unresolvable`: a component shared by two parents, accepted and not
   resolved.
-/

namespace Heirloom.Sbt

open Transaction TypedStore Runs Digraph

/-- The state of a resolution after what is below `ids`, themselves included, has been met. -/
def Resolution.extend (s : State) (left : Nat) (ids : List Nat) (r : Resolution) : Resolution :=
  ⟨r.visited ++ ids.flatMap (preorder (componentsOf s) left),
    r.resolved ++ ids.flatMap (preorder (componentsOf s) left)⟩

/-- What is below `ids` is not too deep, and nothing there is met twice. -/
structure Fresh (s : State) (left : Nat) (visited ids : List Nat) : Prop where
  shallow : ∀ x ∈ ids, Shallow (componentsOf s) left x
  nodup : (ids.flatMap (preorder (componentsOf s) left)).Nodup
  disjoint : visited.Disjoint (ids.flatMap (preorder (componentsOf s) left))

section Resolution

variable {e : Env} {s t : State} {id x current left : Nat} {visited ids : List Nat}
  {r r' : Resolution}

theorem fresh_cons_iff :
    Fresh s left visited (x :: ids) ↔
      Fresh s left visited [x] ∧
        Fresh s left (visited ++ preorder (componentsOf s) left x) ids := by
  constructor
  · rintro ⟨hshallow, hnodup, hdisjoint⟩
    obtain ⟨hx, hids⟩ := List.forall_mem_cons.mp hshallow
    rw [List.flatMap_cons] at hnodup hdisjoint
    obtain ⟨hnx, hnids, happart⟩ := List.nodup_append'.mp hnodup
    obtain ⟨hdx, hdids⟩ := List.disjoint_append_right.mp hdisjoint
    exact ⟨⟨by simpa using hx, by simpa using hnx, by simpa using hdx⟩, hids, hnids,
      List.disjoint_append_left.mpr ⟨hdids, happart⟩⟩
  · rintro ⟨⟨hx, hnx, hdx⟩, hids, hnids, hdisjoint⟩
    obtain ⟨hdids, happart⟩ := List.disjoint_append_left.mp hdisjoint
    rw [List.flatMap_singleton] at hnx hdx
    refine ⟨List.forall_mem_cons.mpr ⟨hx x List.mem_cons_self, hids⟩, ?_, ?_⟩
    · rw [List.flatMap_cons]
      exact List.nodup_append'.mpr ⟨hnx, hnids, happart⟩
    · rw [List.flatMap_cons]
      exact List.disjoint_append_right.mpr ⟨hdx, hdids⟩

/-- A token and then what is below it. -/
theorem fresh_succ_iff :
    Fresh s (left + 1) visited [current] ↔
      current ∉ visited ∧ Fresh s left (visited ++ [current]) (componentsOf s current) := by
  constructor
  · rintro ⟨hshallow, hnodup, hdisjoint⟩
    rw [List.flatMap_singleton, preorder] at hnodup hdisjoint
    obtain ⟨hself, hbelow⟩ := List.nodup_cons.mp hnodup
    obtain ⟨hcurrent, hvisited⟩ := List.disjoint_cons_right.mp hdisjoint
    refine ⟨hcurrent, shallow_succ_iff.mp (hshallow current List.mem_cons_self), hbelow, ?_⟩
    exact List.disjoint_append_left.mpr ⟨hvisited, List.singleton_disjoint.mpr hself⟩
  · rintro ⟨hcurrent, hshallow, hbelow, hdisjoint⟩
    obtain ⟨hvisited, hself⟩ := List.disjoint_append_left.mp hdisjoint
    refine ⟨fun x hx => ?_, ?_, ?_⟩
    · obtain rfl := List.mem_singleton.mp hx
      exact shallow_succ_iff.mpr hshallow
    · rw [List.flatMap_singleton, preorder]
      exact List.nodup_cons.mpr ⟨List.singleton_disjoint.mp hself, hbelow⟩
    · rw [List.flatMap_singleton, preorder]
      exact List.disjoint_cons_right.mpr ⟨hcurrent, hvisited⟩

theorem Resolution.extend_cons :
    r.extend s left (x :: ids) = (r.extend s left [x]).extend s left ids := by
  simp [Resolution.extend]

/-- With `left` more levels a resolution from a token succeeds on what is fresh, and lists
it in preorder. -/
def Lists (e : Env) (s : State) (left : Nat) : Prop :=
  ∀ current r r' t, resolveCompositionInner left current r e s = .ok (r', t) ↔
    Fresh s left r.visited [current] ∧
      r' = ⟨r.visited ++ preorder (componentsOf s) left current,
        r.resolved ++ (preorder (componentsOf s) left current).tail⟩ ∧ t = s

/-- One round of the loop over components. -/
theorem resolveComponent_ok (hlists : Lists e s left) (hminted : s.get (.owner x) ≠ none) :
    (do
      let _ ← loadOwner x
      resolveCompositionInner left x { r with resolved := r.resolved ++ [x] } : Contract _) e s =
        .ok (r', t) ↔
      Fresh s left r.visited [x] ∧ r' = r.extend s left [x] ∧ t = s := by
  obtain ⟨owner, howner⟩ := Option.ne_none_iff_exists'.mp hminted
  have hload : loadOwner x e s = .ok (owner, s) := by
    rw [loadOwner, Tx.bind_of_ok (ok_load.mpr ⟨howner, rfl⟩)]
    rfl
  rw [Tx.bind_of_ok hload, hlists]
  refine and_congr_right fun hfresh => ?_
  cases left with
  | zero => exact absurd (hfresh.shallow x List.mem_cons_self) not_shallow_zero
  | succ left => simp [Resolution.extend, preorder]

theorem foldResolve_ok (hlists : Lists e s left) (hminted : ∀ x ∈ ids, s.get (.owner x) ≠ none) :
    Tx.foldEach ids r (fun r component => do
        let _ ← loadOwner component
        resolveCompositionInner left component { r with resolved := r.resolved ++ [component] })
        e s = .ok (r', t) ↔
      Fresh s left r.visited ids ∧ r' = r.extend s left ids ∧ t = s := by
  induction ids generalizing r with
  | nil =>
      have hnil : Fresh s left r.visited [] :=
        ⟨fun x hx => absurd hx List.not_mem_nil, List.nodup_nil, List.disjoint_nil_right _⟩
      rw [Tx.foldEach, Tx.ok_pure]
      simp [hnil, Resolution.extend, eq_comm]
  | cons x ids ih =>
      obtain ⟨hx, hids⟩ := List.forall_mem_cons.mp hminted
      rw [Tx.foldEach, Tx.ok_bind, fresh_cons_iff, Resolution.extend_cons]
      constructor
      · rintro ⟨r₁, u, hround, hrest⟩
        obtain ⟨hfresh, rfl, rfl⟩ := (resolveComponent_ok hlists hx).mp hround
        obtain ⟨hlater, hr', ht⟩ := (ih hids).mp hrest
        exact ⟨⟨hfresh, by simpa [Resolution.extend] using hlater⟩, hr', ht⟩
      · rintro ⟨⟨hfresh, hlater⟩, hr', ht⟩
        refine ⟨r.extend s left [x], s, (resolveComponent_ok hlists hx).mpr ⟨hfresh, rfl, rfl⟩, ?_⟩
        exact (ih hids).mpr ⟨by simpa [Resolution.extend] using hlater, hr', ht⟩

/-- A resolution succeeds exactly on a tree that is not too deep, and lists it. -/
theorem resolveCompositionInner_ok (hs : Composed s) : Lists e s left := by
  induction left with
  | zero =>
      intro current r r' t
      refine iff_of_false (fun h => by cases h) fun h => ?_
      exact not_shallow_zero (h.1.shallow current List.mem_cons_self)
  | succ left ih =>
      intro current r r' t
      have hids : ∀ x ∈ componentsOf s current, s.get (.owner x) ≠ none :=
        fun x hx => (hs.minted current x hx).2
      have hload : ((s.get (.compositionComponents current)).map (·.componentIds)).getD [] =
          componentsOf s current := by
        unfold componentsOf
        cases s.get (.compositionComponents current) <;> rfl
      rw [resolveCompositionInner, fresh_succ_iff, and_assoc, preorder, List.tail_cons]
      constructor
      · intro h
        obtain ⟨_, _, hcheck, h⟩ := Tx.ok_bind.mp h
        obtain ⟨hnew, rfl⟩ := Tx.ok_ensure.mp hcheck
        rw [Tx.bind_of_ok (ok_load.mpr ⟨rfl, rfl⟩), hload] at h
        obtain ⟨hfresh, rfl, rfl⟩ := (foldResolve_ok ih hids).mp h
        exact ⟨hnew, hfresh, by simp [Resolution.extend], rfl⟩
      · rintro ⟨hnew, hfresh, rfl, rfl⟩
        rw [Tx.bind_of_ok (Tx.ok_ensure (u := ()).mpr ⟨hnew, rfl⟩),
          Tx.bind_of_ok (ok_load.mpr ⟨rfl, rfl⟩), hload]
        exact (foldResolve_ok ih hids).mpr ⟨hfresh, by simp [Resolution.extend], rfl⟩

/-- No two walks from the token lead to the same one, and none has more than 31 steps. -/
structure TreeBelow (s : State) (id : Nat) : Prop where
  separate : ∀ p q x, walk (componentsOf s) p id = some x → walk (componentsOf s) q id = some x →
    p = q
  short : ∀ p x, walk (componentsOf s) p id = some x → p.length < maxCompositionDepth

theorem fresh_iff_treeBelow : Fresh s maxCompositionDepth [] [id] ↔ TreeBelow s id := by
  constructor
  · rintro ⟨hshallow, hnodup, -⟩
    have hshort := hshallow id List.mem_cons_self
    rw [List.flatMap_singleton, nodup_preorder] at hnodup
    exact ⟨fun p q x hp hq => hnodup p q x (hshort p x hp) (hshort q x hq) hp hq, hshort⟩
  · rintro ⟨hseparate, hshort⟩
    refine ⟨fun x hx => List.mem_singleton.mp hx ▸ hshort, ?_, List.disjoint_nil_left _⟩
    rw [List.flatMap_singleton, nodup_preorder]
    exact fun p q x _ _ => hseparate p q x

/-- What the list of a tree holds besides its root. -/
theorem mem_tail_preorder (h : TreeBelow s id) :
    x ∈ (preorder (componentsOf s) maxCompositionDepth id).tail ↔
      Relation.TransGen (Edge (componentsOf s)) id x := by
  have hlist : (preorder (componentsOf s) maxCompositionDepth id).tail =
      (componentsOf s id).flatMap (preorder (componentsOf s) (maxCompositionDepth - 1)) := rfl
  rw [hlist, List.mem_flatMap, Relation.TransGen.head'_iff]
  refine exists_congr fun b => and_congr_right fun hb => ?_
  have hshallow : Shallow (componentsOf s) (maxCompositionDepth - 1) b :=
    shallow_succ_iff.mp h.short b hb
  rw [mem_preorder]
  exact (exists_congr fun p => and_iff_right_of_imp (hshallow p x)).trans reaches_iff_walk.symm

/-- The tokens below `id`, each listed once. -/
structure ListsBelow (s : State) (id : Nat) (ids : List Nat) : Prop where
  nodup : ids.Nodup
  mem_iff : ∀ x, x ∈ ids ↔ Relation.TransGen (Edge (componentsOf s)) id x

theorem resolveComposition_ok (hs : Composed s) :
    resolveComposition id e s = .ok (ids, t) ↔
      TreeBelow s id ∧ ids = (preorder (componentsOf s) maxCompositionDepth id).tail ∧ t = s := by
  rw [resolveComposition, Tx.ok_bind, ← fresh_iff_treeBelow]
  constructor
  · rintro ⟨r, u, hinner, hr⟩
    obtain ⟨hfresh, rfl, rfl⟩ := (resolveCompositionInner_ok hs _ _ _ _).mp hinner
    obtain ⟨rfl, rfl⟩ := Tx.ok_pure.mp hr
    exact ⟨hfresh, rfl, rfl⟩
  · rintro ⟨hfresh, rfl, rfl⟩
    exact ⟨_, _, (resolveCompositionInner_ok hs _ _ _ _).mpr ⟨hfresh, rfl, rfl⟩,
      Tx.ok_pure.mpr ⟨rfl, rfl⟩⟩

/-- In every reachable state, a resolution returns what is below a token exactly if that
is a tree of at most 31 levels. -/
theorem composition_resolves (s : State) (hs : Reachable s) (id : Nat) :
    (∀ e, ∃ ids, resolveComposition id e s = .ok (ids, s) ∧ ListsBelow s id ids) ↔
      TreeBelow s id := by
  constructor
  · intro h
    obtain ⟨ids, hresolve, -⟩ := h signed
    exact ((resolveComposition_ok hs.composed).mp hresolve).1
  · intro htree e
    refine ⟨_, (resolveComposition_ok hs.composed).mpr ⟨htree, rfl, rfl⟩, ?_, fun x => ?_⟩
    · have hnodup := (fresh_iff_treeBelow.mpr htree).nodup
      rw [List.flatMap_singleton] at hnodup
      exact hnodup.sublist (List.tail_sublist _)
    · exact mem_tail_preorder htree

end Resolution

/-! ## A shared component -/

/-- Token 3 as the component of the tokens 1 and 2. -/
def sharedState : State :=
  ((tokensState 4).put (.compositionComponents 2) ⟨[3]⟩).put (.compositionComponents 1) ⟨[3]⟩

/-- Token 0 above both. -/
def diamondState : State := sharedState.put (.compositionComponents 0) ⟨[1, 2]⟩

theorem reachable_sharedState : Reachable sharedState := by
  obtain ⟨ks, hrun⟩ := reachable_tokensState (n := 4) (by decide)
  have hfirst : Step (tokensState 4) (signed, .setCompositionComponents 2 [3])
      ((tokensState 4).put (.compositionComponents 2) ⟨[3]⟩) := rfl
  have hsecond : Step ((tokensState 4).put (.compositionComponents 2) ⟨[3]⟩)
      (signed, .setCompositionComponents 1 [3]) sharedState := rfl
  exact ⟨_, (hrun.next hfirst).next hsecond⟩

/-- Token 2 resolves to token 3. -/
theorem composition_resolves_run :
    ∃ ids, resolveComposition 2 signed sharedState = .ok (ids, sharedState) ∧
      ListsBelow sharedState 2 ids := by
  have hresolve : resolveComposition 2 signed sharedState = .ok ([3], sharedState) := rfl
  have htree := ((resolveComposition_ok reachable_sharedState.composed).mp hresolve).1
  exact (composition_resolves sharedState reachable_sharedState 2).mpr htree signed

/-- A component shared by two parents is accepted, and the composition does not resolve. -/
theorem composition_unresolvable :
    Reachable diamondState ∧ diamondState.get (.owner 0) ≠ none ∧
      ∀ e, resolveComposition 0 e diamondState = .error (.error .invalidCompositionGraph) := by
  obtain ⟨ks, hrun⟩ := reachable_sharedState
  have hstep : Step sharedState (signed, .setCompositionComponents 0 [1, 2]) diamondState := rfl
  exact ⟨⟨_, hrun.next hstep⟩, Option.some_ne_none _, fun e => rfl⟩

end Heirloom.Sbt
