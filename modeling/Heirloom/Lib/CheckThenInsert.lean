import Mathlib.Logic.Function.Basic
import Heirloom.Lib.Runs

/-!
# Keys that are checked first and inserted later

A client that wants to add a key to a store first looks whether the key is there, and adds it
in a later step. Between the two steps others may add the same key. The keys stay unique
exactly as long as no insertion is disturbed (`unique_iff`): no other client has inserted the
key since the check, unless the key was removed again.
-/

namespace CheckThenInsert

open Runs

variable {ι κ : Type} [DecidableEq ι] [DecidableEq κ]

/-- How often each key is stored, and the key that a client has found absent. -/
structure Keys (ι κ : Type) where
  count : κ → Nat
  cleared : ι → Option κ

inductive KeyEvent (ι κ : Type)
  | checked (i : ι) (x : κ)
  | inserted (i : ι) (x : κ)
  | removed (x : κ)
  | other

inductive KeyStep : Keys ι κ → KeyEvent ι κ → Keys ι κ → Prop
  | checked {s : Keys ι κ} {i : ι} {x : κ} (habsent : s.count x = 0) :
      KeyStep s (.checked i x) ⟨s.count, Function.update s.cleared i (some x)⟩
  | inserted {s : Keys ι κ} {i : ι} {x : κ} (hcleared : s.cleared i = some x) :
      KeyStep s (.inserted i x)
        ⟨Function.update s.count x (s.count x + 1), Function.update s.cleared i none⟩
  | removed {s t : Keys ι κ} {x : κ} (hfewer : t.count x < s.count x)
      (hothers : ∀ y, y ≠ x → t.count y = s.count y)
      (hcleared : ∀ i y, t.cleared i = some y → s.cleared i = some y) :
      KeyStep s (.removed x) t
  | other {s t : Keys ι κ} (hcount : ∀ y, t.count y = s.count y)
      (hcleared : ∀ i y, t.cleared i = some y → s.cleared i = some y) : KeyStep s .other t

def Unique (s : Keys ι κ) : Prop := ∀ x, s.count x ≤ 1

def empty : Keys ι κ := ⟨fun _ => 0, fun _ => none⟩

/-- Since the last check of `i` the key has been inserted and not been removed. -/
def Disturbed (i : ι) (x : κ) : List (KeyEvent ι κ) → Prop
  | [] => False
  | .checked j _ :: es => j ≠ i ∧ Disturbed i x es
  | .inserted _ y :: es => y = x ∨ Disturbed i x es
  | .removed y :: es => y ≠ x ∧ Disturbed i x es
  | .other :: es => Disturbed i x es

/-- The event is not a disturbed insertion. -/
def Allowed (es : List (KeyEvent ι κ)) : KeyEvent ι κ → Prop
  | .inserted i x => ¬ Disturbed i x es
  | _ => True

/-- No insertion is disturbed, the newest event first. -/
def Undisturbed : List (KeyEvent ι κ) → Prop
  | [] => True
  | e :: es => Allowed es e ∧ Undisturbed es

/-- A client has found absent what is stored exactly if it was disturbed. -/
def Tracks (es : List (KeyEvent ι κ)) (s : Keys ι κ) : Prop :=
  ∀ i x, s.cleared i = some x → (s.count x ≠ 0 ↔ Disturbed i x es)

variable {s t : Keys ι κ} {e : KeyEvent ι κ} {es : List (KeyEvent ι κ)}

/-- The step rule. A removal empties a key only if the keys were unique before. -/
theorem Tracks.step (h : Tracks es s) (hunique : Unique s) (hstep : KeyStep s e t) :
    Tracks (e :: es) t := by
  intro i x hcleared
  cases hstep with
  | @checked j y habsent =>
      dsimp only at hcleared ⊢
      rcases eq_or_ne i j with rfl | hne
      · -- the check itself: nothing has happened since
        rw [Function.update_self] at hcleared
        obtain rfl := Option.some.inj hcleared
        exact ⟨fun hstored => absurd habsent hstored, fun hdisturbed => absurd rfl hdisturbed.1⟩
      · rw [Function.update_of_ne hne] at hcleared
        rw [h i x hcleared]
        exact ⟨fun hdisturbed => ⟨hne.symm, hdisturbed⟩, fun hdisturbed => hdisturbed.2⟩
  | @inserted j y hj =>
      dsimp only at hcleared ⊢
      rcases eq_or_ne i j with rfl | hne
      · rw [Function.update_self] at hcleared
        cases hcleared
      · rw [Function.update_of_ne hne] at hcleared
        rcases eq_or_ne x y with rfl | hxy
        · rw [Function.update_self]
          exact ⟨fun _ => .inl rfl, fun _ => Nat.succ_ne_zero _⟩
        · rw [Function.update_of_ne hxy, h i x hcleared]
          exact ⟨.inr, fun hdisturbed => hdisturbed.resolve_left hxy.symm⟩
  | @removed _ y hfewer hothers hkept =>
      rcases eq_or_ne x y with rfl | hxy
      · have hone : s.count x ≤ 1 := hunique x
        have hgone : t.count x = 0 := by omega
        exact ⟨fun hstored => absurd hgone hstored, fun hdisturbed => absurd rfl hdisturbed.1⟩
      · rw [hothers x hxy, h i x (hkept i x hcleared)]
        exact ⟨fun hdisturbed => ⟨hxy.symm, hdisturbed⟩, fun hdisturbed => hdisturbed.2⟩
  | other hcount hkept =>
      rw [hcount x]
      exact h i x (hkept i x hcleared)

/-- A step keeps the keys unique exactly if it is not a disturbed insertion. -/
theorem unique_step_iff (h : Tracks es s) (hunique : Unique s) (hstep : KeyStep s e t) :
    Unique t ↔ Allowed es e := by
  cases hstep with
  | checked habsent => exact ⟨fun _ => trivial, fun _ => hunique⟩
  | other hcount _ =>
      refine ⟨fun _ => trivial, fun _ x => ?_⟩
      rw [hcount x]
      exact hunique x
  | @removed _ y hfewer hothers _ =>
      refine ⟨fun _ => trivial, fun _ x => ?_⟩
      have hone : s.count x ≤ 1 := hunique x
      rcases eq_or_ne x y with rfl | hxy
      · exact Nat.le_trans (Nat.le_of_lt hfewer) hone
      · rw [hothers x hxy]
        exact hone
  | @inserted i y hcleared =>
      constructor
      · intro hafter hdisturbed
        have hone : Function.update s.count y (s.count y + 1) y ≤ 1 := hafter y
        rw [Function.update_self] at hone
        exact (h i y hcleared).mpr hdisturbed (by omega)
      · intro hallowed x
        have habsent : s.count y = 0 := by
          by_contra hstored
          exact hallowed ((h i y hcleared).mp hstored)
        show Function.update s.count y (s.count y + 1) x ≤ 1
        rcases eq_or_ne x y with rfl | hxy
        · have hone : Function.update s.count x (s.count x + 1) x = 1 := by
            rw [Function.update_self, habsent]
          exact Nat.le_of_eq hone
        · rw [Function.update_of_ne hxy]
          exact hunique x

/-! ## Systems that keep keys this way -/

section Systems

variable {σ κ' : Type} {step : σ → κ' → σ → Prop} {keys : σ → Keys ι κ}
  {event : κ' → KeyEvent ι κ} {s₀ t₀ : σ} {ks : List κ'}

/-- The steps of a system after which its keys are unique. -/
def Keeping (step : σ → κ' → σ → Prop) (keys : σ → Keys ι κ) (s : σ) (k : κ') (t : σ) : Prop :=
  step s k t ∧ Unique (keys t)

/-- While the keys are unique, a run tracks what its clients have found absent. -/
theorem Keeping.tracks (h : Run (Keeping step keys) s₀ ks t₀)
    (hstart : keys s₀ = empty) (hstep : ∀ s k t, step s k t → KeyStep (keys s) (event k) (keys t)) :
    Unique (keys t₀) ∧ Tracks (ks.map event) (keys t₀) := by
  induction h with
  | start =>
      rw [hstart]
      refine ⟨fun _ => Nat.zero_le _, fun i x hcleared => ?_⟩
      cases hcleared
  | next _ hk ih => exact ⟨hk.2, ih.2.step ih.1 (hstep _ _ _ hk.1)⟩

/-- The keys are unique in every state of a run exactly if it has no disturbed insertion. -/
theorem unique_iff (h : Run step s₀ ks t₀) (hstart : keys s₀ = empty)
    (hstep : ∀ s k t, step s k t → KeyStep (keys s) (event k) (keys t)) :
    Run (Keeping step keys) s₀ ks t₀ ↔ Undisturbed (ks.map event) := by
  constructor
  · intro hkeeping
    clear h
    induction hkeeping with
    | start => trivial
    | next hrun hk ih =>
        obtain ⟨hunique, htracks⟩ := Keeping.tracks hrun hstart hstep
        exact ⟨(unique_step_iff htracks hunique (hstep _ _ _ hk.1)).mp hk.2, ih⟩
  · intro hundisturbed
    induction h with
    | start => exact .start
    | next _ hk ih =>
        have hrun : Run (Keeping step keys) s₀ _ _ := ih hundisturbed.2
        obtain ⟨hunique, htracks⟩ := Keeping.tracks hrun hstart hstep
        exact .next hrun ⟨hk, (unique_step_iff htracks hunique (hstep _ _ _ hk)).mpr
          hundisturbed.1⟩

end Systems

end CheckThenInsert
