import Heirloom.Lib.Runs

/-!
# What has happened in a run

`Happened step s P ks`: one of the steps `ks`, taken from `s`, met `P` in the state in which it
was taken. What has happened stays so (`Happened.later`), and what holds because of a step of the
past is shown by what the last step does (`Run.provenance`).
-/

namespace Runs

variable {σ κ α : Type} {step : σ → κ → σ → Prop} {s t : σ} {ks : List κ} {k : κ}
  {P : σ → κ → Prop}

def Happened (step : σ → κ → σ → Prop) (s : σ) (P : σ → κ → Prop) (ks : List κ) : Prop :=
  ∃ later k before t, ks = later ++ k :: before ∧ Run step s before t ∧ P t k

theorem Happened.now (hrun : Run step s ks t) (h : P t k) : Happened step s P (k :: ks) :=
  ⟨[], k, ks, t, rfl, hrun, h⟩

theorem Happened.later (h : Happened step s P ks) : Happened step s P (k :: ks) := by
  obtain ⟨later, k', before, t, rfl, hrun, hP⟩ := h
  exact ⟨k :: later, k', before, t, rfl, hrun, hP⟩

/-- Where the items of a state come from: what is in the state after a step was in it before, or
the step has brought it. -/
theorem Run.provenance {I : σ → α → Prop} {B : α → σ → κ → Prop}
    (hrun : Run step s ks t) (hs : ∀ a, ¬ I s a)
    (hstep : ∀ ks t k u a, Run step s ks t → step t k u → I u a → I t a ∨ B a t k)
    {a : α} (ha : I t a) : Happened step s (B a) ks := by
  induction hrun with
  | start => exact absurd ha (hs a)
  | next hrun hk ih =>
      rcases hstep _ _ _ _ a hrun hk ha with hbefore | hbrings
      · exact (ih hbefore).later
      · exact .now hrun hbrings

end Runs
