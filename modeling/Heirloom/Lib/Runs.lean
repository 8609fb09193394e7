/-!
# Runs of a labelled transition system

A run is a finite sequence of labelled steps. Its labels are kept newest first,
so that the history at a state is what has happened before it and a step adds
to the front. `Run.invariant` is the induction rule: what holds at the start
and is kept by every step holds at the end. `Guarded` restricts the steps of a
system to those that meet a condition. `play` computes a run from a list of turns.
-/

namespace Runs

variable {σ κ : Type}

/-- `Run step s ks t`: the steps `ks`, newest first, lead from `s` to `t`. -/
inductive Run (step : σ → κ → σ → Prop) (s : σ) : List κ → σ → Prop
  | start : Run step s [] s
  | next {ks : List κ} {t u : σ} {k : κ} :
      Run step s ks t → step t k u → Run step s (k :: ks) u

/-- The steps of `step` whose label and source state meet `C`. -/
def Guarded (step : σ → κ → σ → Prop) (C : σ → κ → Prop) (s : σ) (k : κ) (t : σ) : Prop :=
  step s k t ∧ C s k

variable {step : σ → κ → σ → Prop} {s t : σ} {ks : List κ}

namespace Run

/-- The invariant rule. -/
theorem invariant {I : σ → Prop} (h : Run step s ks t) (hs : I s)
    (hstep : ∀ t k u, I t → step t k u → I u) : I t := by
  induction h with
  | start => exact hs
  | next _ hk ih => exact hstep _ _ _ ih hk

/-- The invariant rule for a property of the history and the state. -/
theorem invariantHistory {I : List κ → σ → Prop} (h : Run step s ks t) (hs : I [] s)
    (hstep : ∀ ks t k u, I ks t → step t k u → I (k :: ks) u) : I ks t := by
  induction h with
  | start => exact hs
  | next _ hk ih => exact hstep _ _ _ _ ih hk

/-- A run of steps that are steps of another system is a run of that one. -/
theorem mono {step' : σ → κ → σ → Prop} (h : Run step s ks t)
    (hstep : ∀ s k t, step s k t → step' s k t) : Run step' s ks t := by
  induction h with
  | start => exact .start
  | next _ hk ih => exact .next ih (hstep _ _ _ hk)

/-- What a run does to a part of its states is a run of the part. -/
theorem map {τ : Type} {step' : τ → κ → τ → Prop} {f : σ → τ} (h : Run step s ks t)
    (hstep : ∀ s k t, step s k t → step' (f s) k (f t)) : Run step' (f s) ks (f t) := by
  induction h with
  | start => exact .start
  | next _ hk ih => exact .next ih (hstep _ _ _ hk)

/-- A run of the restricted system is a run of the whole one. -/
theorem unguard {C : σ → κ → Prop} (h : Run (Guarded step C) s ks t) : Run step s ks t := by
  induction h with
  | start => exact .start
  | next _ hk ih => exact .next ih hk.1

/-- A run whose labels meet the condition in any state is one of the restricted system. -/
theorem guard {C : σ → κ → Prop} (h : Run step s ks t) (hC : ∀ k ∈ ks, ∀ s, C s k) :
    Run (Guarded step C) s ks t := by
  induction h with
  | start => exact .start
  | next _ hk ih =>
      exact .next (ih fun k hk' s => hC k (List.mem_cons_of_mem _ hk') s)
        ⟨hk, hC _ List.mem_cons_self _⟩

theorem guard_single {C : σ → κ → Prop} {k : κ} (h : Run step s [k] t) (hC : C s k) :
    Run (Guarded step C) s [k] t := by
  cases h with
  | next h hk =>
      cases h
      exact .next .start ⟨hk, hC⟩

/-- Runs compose; the history of the second comes on top of the first. -/
theorem trans {u : σ} {ls : List κ} (h : Run step s ks t) (h' : Run step t ls u) :
    Run step s (ls ++ ks) u := by
  induction h' with
  | start => exact h
  | next _ hk ih => exact .next ih hk

/-- A run can be cut at any place of its history. -/
theorem cut {ls : List κ} (h : Run step s (ls ++ ks) t) :
    ∃ u, Run step s ks u ∧ Run step u ls t := by
  induction ls generalizing t with
  | nil => exact ⟨t, h, .start⟩
  | cons l ls ih =>
      cases h with
      | next h hl =>
          obtain ⟨u, hks, hls⟩ := ih h
          exact ⟨u, hks, .next hls hl⟩

/-- A history leads to one state only, if every step does. -/
theorem functional {u : σ} (hstep : ∀ s k t u, step s k t → step s k u → t = u)
    (h : Run step s ks t) (h' : Run step s ks u) : t = u := by
  induction h generalizing u with
  | start =>
      cases h'
      rfl
  | next _ hk ih =>
      cases h' with
      | next h' hk' =>
          obtain rfl := ih h'
          exact hstep _ _ _ _ hk hk'

end Run

/-! Runs that are computed: a system of turns, each of which gives a label and the next state. -/

section Play

variable {α : Type}

/-- Takes the turns one after the other, if each label passes the check. -/
def play (next : σ → α → Option (κ × σ)) (check : σ → κ → Bool) :
    σ → List α → Option (List κ × σ)
  | s, [] => some ([], s)
  | s, turn :: turns =>
      match next s turn with
      | none => none
      | some (k, t) =>
          if check s k then (play next check t turns).map fun (ks, u) => (ks ++ [k], u) else none

theorem run_of_play {next : σ → α → Option (κ × σ)} {check : σ → κ → Bool} {turns : List α}
    (hnext : ∀ s turn k t, next s turn = some (k, t) → step s k t)
    (h : play next check s turns = some (ks, t)) :
    Run (Guarded step fun s k => check s k = true) s ks t := by
  induction turns generalizing s ks with
  | nil =>
      cases h
      exact .start
  | cons turn turns ih =>
      unfold play at h
      split at h
      · cases h
      · next k u hturn =>
          split at h
          · next hcheck =>
              obtain ⟨⟨ks', t'⟩, hplay, heq⟩ := Option.map_eq_some_iff.mp h
              cases heq
              exact (Run.next .start ⟨hnext _ _ _ _ hturn, hcheck⟩).trans (ih hplay)
          · cases h

end Play

end Runs
