import Heirloom.Lib.Search

/-!
# Unfolding a graph into a tree

A walk takes, at each node, the successor at some position of its list; two walks may
lead to the same node. `preorder` lists the ends of all walks of a limited length, a
node before what is below it.

Results:
1. `mem_preorder`: it lists exactly those ends.
2. `nodup_preorder`: it repeats no node exactly if no two walks lead to the same one.
-/

namespace Digraph

open Relation

variable {ι : Type} {next : ι → List ι} {a x : ι} {p q : List Nat} {i n : Nat}

/-- The end of a walk from `a`, given by its positions. -/
def walk (next : ι → List ι) : List Nat → ι → Option ι
  | [], a => some a
  | i :: p, a => (next a)[i]?.bind (walk next p)

/-- The ends of the walks of fewer than `n` steps. -/
def preorder (next : ι → List ι) : Nat → ι → List ι
  | 0, _ => []
  | n + 1, a => a :: (next a).flatMap (preorder next n)

@[simp] theorem walk_nil : walk next [] a = some a := rfl

theorem walk_cons : walk next (i :: p) a = (next a)[i]?.bind (walk next p) := rfl

theorem walk_cons_eq_some :
    walk next (i :: p) a = some x ↔ ∃ b, (next a)[i]? = some b ∧ walk next p b = some x := by
  rw [walk_cons, Option.bind_eq_some_iff]

/-- The nodes that are reached are the ends of walks. -/
theorem reaches_iff_walk : Reaches next a x ↔ ∃ p, walk next p a = some x := by
  constructor
  · intro h
    induction h using ReflTransGen.head_induction_on with
    | refl => exact ⟨[], rfl⟩
    | head hedge _ ih =>
        obtain ⟨p, hp⟩ := ih
        obtain ⟨i, hi⟩ := List.mem_iff_getElem?.mp hedge
        exact ⟨i :: p, walk_cons_eq_some.mpr ⟨_, hi, hp⟩⟩
  · rintro ⟨p, hp⟩
    induction p generalizing a with
    | nil =>
        obtain rfl := Option.some.inj hp
        exact .refl
    | cons i p ih =>
        obtain ⟨b, hi, hrest⟩ := walk_cons_eq_some.mp hp
        exact (ih hrest).head (List.mem_of_getElem? hi)

theorem mem_preorder : x ∈ preorder next n a ↔ ∃ p, p.length < n ∧ walk next p a = some x := by
  induction n generalizing a with
  | zero => simp [preorder]
  | succ n ih =>
      rw [preorder, List.mem_cons, List.mem_flatMap]
      constructor
      · rintro (rfl | ⟨b, hb, hx⟩)
        · exact ⟨[], Nat.succ_pos n, rfl⟩
        · obtain ⟨p, hlt, hp⟩ := ih.mp hx
          obtain ⟨i, hi⟩ := List.mem_iff_getElem?.mp hb
          exact ⟨i :: p, Nat.succ_lt_succ hlt, walk_cons_eq_some.mpr ⟨b, hi, hp⟩⟩
      · rintro ⟨p, hlt, hp⟩
        cases p with
        | nil => exact .inl (Option.some.inj hp).symm
        | cons i p =>
            obtain ⟨b, hi, hrest⟩ := walk_cons_eq_some.mp hp
            exact .inr ⟨b, List.mem_of_getElem? hi, ih.mpr ⟨p, Nat.lt_of_succ_lt_succ hlt, hrest⟩⟩

/-- No two walks of fewer than `n` steps lead to the same node. -/
def Separate (next : ι → List ι) (n : Nat) (a : ι) : Prop :=
  ∀ p q x, p.length < n → q.length < n → walk next p a = some x → walk next q a = some x → p = q

theorem separate_succ_iff :
    Separate next (n + 1) a ↔
      (∀ p, p.length < n + 1 → walk next p a = some a → p = []) ∧
      (∀ b ∈ next a, Separate next n b) ∧
      ∀ (i j : Nat) b c p q x, (next a)[i]? = some b → (next a)[j]? = some c → p.length < n →
        q.length < n → walk next p b = some x → walk next q c = some x → i = j := by
  constructor
  · intro h
    refine ⟨fun p hp hself => h p [] a hp (Nat.succ_pos n) hself rfl,
      fun b hb p q x hp hq hpx hqx => ?_, fun i j b c p q x hi hj hp hq hpx hqx => ?_⟩
    · obtain ⟨i, hi⟩ := List.mem_iff_getElem?.mp hb
      have heq := h (i :: p) (i :: q) x (Nat.succ_lt_succ hp) (Nat.succ_lt_succ hq)
        (walk_cons_eq_some.mpr ⟨b, hi, hpx⟩) (walk_cons_eq_some.mpr ⟨b, hi, hqx⟩)
      exact (List.cons.inj heq).2
    · have heq := h (i :: p) (j :: q) x (Nat.succ_lt_succ hp) (Nat.succ_lt_succ hq)
        (walk_cons_eq_some.mpr ⟨b, hi, hpx⟩) (walk_cons_eq_some.mpr ⟨c, hj, hqx⟩)
      exact (List.cons.inj heq).1
  · rintro ⟨hself, hbelow, happart⟩ p q x hp hq hpx hqx
    cases p with
    | nil =>
        obtain rfl := Option.some.inj hpx
        exact (hself q hq hqx).symm
    | cons i p =>
        cases q with
        | nil =>
            obtain rfl := Option.some.inj hqx
            exact hself (i :: p) hp hpx
        | cons j q =>
            obtain ⟨b, hi, hpb⟩ := walk_cons_eq_some.mp hpx
            obtain ⟨c, hj, hqc⟩ := walk_cons_eq_some.mp hqx
            have hp' := Nat.lt_of_succ_lt_succ hp
            have hq' := Nat.lt_of_succ_lt_succ hq
            obtain rfl := happart i j b c p q x hi hj hp' hq' hpb hqc
            obtain rfl := Option.some.inj (hi.symm.trans hj)
            rw [hbelow b (List.mem_of_getElem? hi) p q x hp' hq' hpb hqc]

/-- The lists below the successors of `a` share no node. -/
theorem pairwise_disjoint_iff :
    (next a).Pairwise (Function.onFun List.Disjoint (preorder next n)) ↔
      ∀ (i j : Nat) b c p q x, (next a)[i]? = some b → (next a)[j]? = some c → p.length < n →
        q.length < n → walk next p b = some x → walk next q c = some x → i = j := by
  rw [List.pairwise_iff_getElem]
  constructor
  · intro h i j b c p q x hi hj hp hq hpx hqx
    obtain ⟨hi', rfl⟩ := List.getElem?_eq_some_iff.mp hi
    obtain ⟨hj', rfl⟩ := List.getElem?_eq_some_iff.mp hj
    have hb := mem_preorder.mpr ⟨p, hp, hpx⟩
    have hc := mem_preorder.mpr ⟨q, hq, hqx⟩
    rcases Nat.lt_trichotomy i j with hlt | heq | hgt
    · exact absurd hc (h i j hi' hj' hlt hb)
    · exact heq
    · exact absurd hb (h j i hj' hi' hgt hc)
  · intro h i j hi hj hlt x hb hc
    obtain ⟨p, hp, hpx⟩ := mem_preorder.mp hb
    obtain ⟨q, hq, hqx⟩ := mem_preorder.mp hc
    have heq := h i j _ _ p q x (List.getElem?_eq_getElem hi) (List.getElem?_eq_getElem hj) hp hq
      hpx hqx
    exact absurd heq (Nat.ne_of_lt hlt)

theorem nodup_preorder : (preorder next n a).Nodup ↔ Separate next n a := by
  induction n generalizing a with
  | zero => simp [preorder, Separate]
  | succ n ih =>
      rw [separate_succ_iff, ← pairwise_disjoint_iff, preorder, List.nodup_cons,
        List.nodup_flatMap]
      refine and_congr ⟨fun hnot p hp hself => ?_, fun hself hmem => ?_⟩
        (and_congr (forall₂_congr fun b _ => ih) Iff.rfl)
      · cases p with
        | nil => rfl
        | cons i p =>
            obtain ⟨b, hi, hrest⟩ := walk_cons_eq_some.mp hself
            have hbelow := mem_preorder.mpr ⟨p, Nat.lt_of_succ_lt_succ hp, hrest⟩
            exact absurd (List.mem_flatMap.mpr ⟨b, List.mem_of_getElem? hi, hbelow⟩) hnot
      · obtain ⟨b, hb, hbelow⟩ := List.mem_flatMap.mp hmem
        obtain ⟨p, hp, hrest⟩ := mem_preorder.mp hbelow
        obtain ⟨i, hi⟩ := List.mem_iff_getElem?.mp hb
        cases hself (i :: p) (Nat.succ_lt_succ hp) (walk_cons_eq_some.mpr ⟨b, hi, hrest⟩)

/-- No walk from `a` takes `n` steps. -/
def Shallow (next : ι → List ι) (n : Nat) (a : ι) : Prop :=
  ∀ p x, walk next p a = some x → p.length < n

theorem not_shallow_zero : ¬ Shallow next 0 a :=
  fun h => Nat.not_lt_zero _ (h [] a rfl)

theorem shallow_succ_iff : Shallow next (n + 1) a ↔ ∀ b ∈ next a, Shallow next n b := by
  constructor
  · intro h b hb p x hp
    obtain ⟨i, hi⟩ := List.mem_iff_getElem?.mp hb
    exact Nat.lt_of_succ_lt_succ (h (i :: p) x (walk_cons_eq_some.mpr ⟨b, hi, hp⟩))
  · intro h p x hp
    cases p with
    | nil => exact Nat.succ_pos n
    | cons i p =>
        obtain ⟨b, hi, hrest⟩ := walk_cons_eq_some.mp hp
        exact Nat.succ_lt_succ (h b (List.mem_of_getElem? hi) p x hrest)

end Digraph
