import Mathlib.Data.List.Nodup
import Mathlib.Logic.Function.Basic
import Heirloom.Lib.Runs

/-!
# Tickets that are good for one use

A ticket of some kind is issued to an owner under a fresh name and is open until it is
claimed. A client that claims it in time holds it, does its work in later steps, and completes
it or drops it. Claiming takes the ticket away in the same step, so that over every run a name
is completed at most once, by its owner and in time (`honoured_run`).
-/

namespace Tickets

open Runs

variable {ι κ ν ω : Type}

/-- A ticket with the time at which it was issued, or claimed. -/
structure Ticket (κ ν ω : Type) where
  kind : κ
  name : ν
  owner : ω
  time : Nat

/-- The open tickets with their owner and the last moment to claim them, the tickets that
clients hold, and all names so far. -/
structure Counter (ι κ ν ω : Type) where
  opened : κ → ν → Option (ω × Nat)
  held : ι → Option (Ticket κ ν ω)
  names : List ν

inductive TicketEvent (κ ν ω : Type)
  | issued (t : Ticket κ ν ω)
  | completed (t : Ticket κ ν ω)
  | other

def issues : List (TicketEvent κ ν ω) → List (Ticket κ ν ω)
  | [] => []
  | .issued t :: es => t :: issues es
  | _ :: es => issues es

def completions : List (TicketEvent κ ν ω) → List (Ticket κ ν ω)
  | [] => []
  | .completed t :: es => t :: completions es
  | _ :: es => completions es

/-- The ticket `t` was issued to its owner, not longer than `ttl` before its time. -/
def Backed (ttl : Nat) (es : List (TicketEvent κ ν ω)) (t : Ticket κ ν ω) : Prop :=
  ∃ b ∈ issues es, b.kind = t.kind ∧ b.name = t.name ∧ b.owner = t.owner ∧ t.time ≤ b.time + ttl

/-- Every name has been completed at most once, and every completion is backed. -/
structure Honoured (ttl : Nat) (es : List (TicketEvent κ ν ω)) : Prop where
  once : ((completions es).map Ticket.name).Nodup
  backed : ∀ t ∈ completions es, Backed ttl es t

/-- The invariant: names are issued once, and what is held or completed is open no more. -/
structure Accounted (ttl : Nat) (es : List (TicketEvent κ ν ω)) (s : Counter ι κ ν ω) :
    Prop extends Honoured ttl es where
  names : ∀ b ∈ issues es, b.name ∈ s.names
  distinct : ((issues es).map Ticket.name).Nodup
  opened : ∀ kind name owner expiry, s.opened kind name = some (owner, expiry) →
    ∃ b ∈ issues es, b.kind = kind ∧ b.name = name ∧ b.owner = owner ∧ b.time + ttl = expiry
  held : ∀ i t, s.held i = some t → Backed ttl es t ∧ ∀ kind, s.opened kind t.name = none
  alone : ∀ i j t u, s.held i = some t → s.held j = some u → t.name = u.name → i = j
  completed : ∀ t ∈ completions es, ∀ kind, s.opened kind t.name = none
  unfinished : ∀ i t, s.held i = some t → t.name ∉ (completions es).map Ticket.name

def start : Counter ι κ ν ω := ⟨fun _ _ => none, fun _ => none, []⟩

/-! ## What needs no step -/

section Accounts

variable {ttl : Nat} {s : Counter ι κ ν ω} {e : TicketEvent κ ν ω} {es : List (TicketEvent κ ν ω)}
  {t : Ticket κ ν ω} {kind kind' : κ} {name : ν} {opened : κ → ν → Option (ω × Nat)}

theorem Backed.cons (h : Backed ttl es t) : Backed ttl (e :: es) t := by
  obtain ⟨b, hb, hmatch⟩ := h
  refine ⟨b, ?_, hmatch⟩
  cases e with
  | issued _ => exact List.mem_cons_of_mem _ hb
  | completed _ => exact hb
  | other => exact hb

theorem none_of_sub {opened' : κ → ν → Option (ω × Nat)}
    (hsub : ∀ kind name value, opened' kind name = some value → opened kind name = some value)
    (h : opened kind name = none) : opened' kind name = none := by
  cases hopened : opened' kind name with
  | none => rfl
  | some value => exact absurd (h.symm.trans (hsub _ _ _ hopened)) (by simp)

/-- Closing and dropping tickets breaks nothing. -/
theorem Accounted.shrink (h : Accounted ttl es s) {s' : Counter ι κ ν ω}
    (hopened : ∀ kind name value, s'.opened kind name = some value →
      s.opened kind name = some value)
    (hheld : ∀ j t, s'.held j = some t → s.held j = some t) (hnames : s'.names = s.names) :
    Accounted ttl (.other :: es) s' where
  once := h.once
  backed := h.backed
  names := by
    rw [hnames]
    exact h.names
  distinct := h.distinct
  opened kind name owner expiry ho := h.opened kind name owner expiry (hopened _ _ _ ho)
  held j t hj := ⟨(h.held j t (hheld j t hj)).1,
    fun kind => none_of_sub hopened ((h.held j t (hheld j t hj)).2 kind)⟩
  alone j j' t t' hj hj' := h.alone j j' t t' (hheld j t hj) (hheld j' t' hj')
  completed t ht kind := none_of_sub hopened (h.completed t ht kind)
  unfinished j t hj := h.unfinished j t (hheld j t hj)

/-- Two open tickets of one name are the same. -/
theorem Accounted.opened_unique {value value' : ω × Nat} (h : Accounted ttl es s)
    (hopened : s.opened kind name = some value) (hopened' : s.opened kind' name = some value') :
    kind = kind' := by
  obtain ⟨b, hb, hkind, hname, -⟩ := h.opened _ _ _ _ hopened
  obtain ⟨b', hb', hkind', hname', -⟩ := h.opened _ _ _ _ hopened'
  obtain rfl : b = b' := List.inj_on_of_nodup_map h.distinct hb hb' (hname.trans hname'.symm)
  exact hkind.symm.trans hkind'

theorem accounted_start : Accounted ttl [] (start : Counter ι κ ν ω) where
  once := List.nodup_nil
  backed t ht := absurd ht List.not_mem_nil
  names b hb := absurd hb List.not_mem_nil
  distinct := List.nodup_nil
  opened _ _ _ _ ho := by cases ho
  held _ _ hj := by cases hj
  alone _ _ _ _ hj := by cases hj
  completed t ht := absurd ht List.not_mem_nil
  unfinished _ _ hj := by cases hj

end Accounts

/-! ## Steps -/

section Holding

variable [DecidableEq ι] {ttl : Nat} {s : Counter ι κ ν ω} {es : List (TicketEvent κ ν ω)}
  {t : Ticket κ ν ω} {i j : ι} {held : ι → Option (Ticket κ ν ω)}

theorem held_of_drop (h : Function.update held i none j = some t) : held j = some t := by
  rcases eq_or_ne j i with rfl | hne
  · rw [Function.update_self] at h
    cases h
  · rwa [Function.update_of_ne hne] at h

theorem Accounted.complete (h : Accounted ttl es s) (hheld : s.held i = some t) :
    Accounted ttl (.completed t :: es) { s with held := Function.update s.held i none } where
  once := List.nodup_cons.mpr ⟨h.unfinished i t hheld, h.once⟩
  backed := by
    intro u hu
    rcases List.mem_cons.mp hu with rfl | hu
    · exact (h.held i u hheld).1.cons
    · exact (h.backed u hu).cons
  names := h.names
  distinct := h.distinct
  opened := h.opened
  held j u hj := ⟨(h.held j u (held_of_drop hj)).1.cons, (h.held j u (held_of_drop hj)).2⟩
  alone j j' u u' hj hj' := h.alone j j' u u' (held_of_drop hj) (held_of_drop hj')
  completed := by
    intro u hu
    rcases List.mem_cons.mp hu with rfl | hu
    · exact (h.held i u hheld).2
    · exact h.completed u hu
  unfinished := by
    intro j u hj hdone
    rcases List.mem_cons.mp hdone with hname | hdone
    · -- the client that has completed it was the only one to hold it
      have hsame : j = i := h.alone j i u t (held_of_drop hj) hheld hname
      have hgone : Function.update s.held i none i = some u := hsame ▸ hj
      rw [Function.update_self] at hgone
      cases hgone
    · exact h.unfinished j u (held_of_drop hj) hdone

end Holding

section Steps

variable [DecidableEq ι] [DecidableEq κ] [DecidableEq ν]

/-- No ticket is open under the name afterwards. -/
def close (opened : κ → ν → Option (ω × Nat)) (kind : κ) (name : ν) : κ → ν → Option (ω × Nat) :=
  Function.update opened kind (Function.update (opened kind) name none)

inductive TicketStep (ttl : Nat) :
    Counter ι κ ν ω → TicketEvent κ ν ω → Counter ι κ ν ω → Prop
  | issued {s : Counter ι κ ν ω} {t : Ticket κ ν ω} {i : ι} (hfresh : t.name ∉ s.names) :
      TicketStep ttl s (.issued t)
        { opened := Function.update s.opened t.kind
            (Function.update (s.opened t.kind) t.name (some (t.owner, t.time + ttl)))
          held := Function.update s.held i none
          names := t.name :: s.names }
  | claimed {s : Counter ι κ ν ω} {t : Ticket κ ν ω} {i : ι} {expiry : Nat}
      (hopened : s.opened t.kind t.name = some (t.owner, expiry)) (htime : t.time ≤ expiry) :
      TicketStep ttl s .other
        { s with
          opened := close s.opened t.kind t.name
          held := Function.update s.held i (some t) }
  | spoiled {s : Counter ι κ ν ω} {kind : κ} {name : ν} {i : ι} :
      TicketStep ttl s .other
        { s with
          opened := close s.opened kind name
          held := Function.update s.held i none }
  | completed {s : Counter ι κ ν ω} {t : Ticket κ ν ω} {i : ι} (hheld : s.held i = some t) :
      TicketStep ttl s (.completed t) { s with held := Function.update s.held i none }
  | dropped {s : Counter ι κ ν ω} {i : ι} :
      TicketStep ttl s .other { s with held := Function.update s.held i none }
  | other {s : Counter ι κ ν ω} : TicketStep ttl s .other s

variable {ttl : Nat} {s u : Counter ι κ ν ω} {e : TicketEvent κ ν ω} {es : List (TicketEvent κ ν ω)}
  {t : Ticket κ ν ω} {i j : ι} {kind kind' : κ} {name name' : ν} {value : ω × Nat}
  {opened : κ → ν → Option (ω × Nat)}

omit [DecidableEq ι] in
theorem of_close (h : close opened kind name kind' name' = some value) :
    opened kind' name' = some value ∧ ¬ (kind' = kind ∧ name' = name) := by
  unfold close at h
  rcases eq_or_ne kind' kind with rfl | hkind
  · rw [Function.update_self] at h
    rcases eq_or_ne name' name with rfl | hname
    · rw [Function.update_self] at h
      cases h
    · rw [Function.update_of_ne hname] at h
      exact ⟨h, fun hsame => hname hsame.2⟩
  · rw [Function.update_of_ne hkind] at h
    exact ⟨h, fun hsame => hkind hsame.1⟩

/-- What a client claims in time it may hold: nobody else holds it or has completed it. -/
theorem Accounted.claim {expiry : Nat} (h : Accounted ttl es s)
    (hopened : s.opened t.kind t.name = some (t.owner, expiry)) (htime : t.time ≤ expiry) :
    Accounted ttl (.other :: es)
      { s with
        opened := close s.opened t.kind t.name
        held := Function.update s.held i (some t) } := by
  have hsub : ∀ kind name value, close s.opened t.kind t.name kind name = some value →
      s.opened kind name = some value := fun _ _ _ ho => (of_close ho).1
  have hunheld : ∀ j u, s.held j = some u → u.name ≠ t.name := by
    intro j u hj hname
    have hnone : s.opened t.kind u.name = none := (h.held j u hj).2 t.kind
    rw [hname, hopened] at hnone
    cases hnone
  have hheld : ∀ j u, Function.update s.held i (some t) j = some u →
      j = i ∧ u = t ∨ s.held j = some u := by
    intro j u hj
    rcases eq_or_ne j i with rfl | hne
    · rw [Function.update_self] at hj
      exact .inl ⟨rfl, (Option.some.inj hj).symm⟩
    · rw [Function.update_of_ne hne] at hj
      exact .inr hj
  refine ⟨⟨h.once, h.backed⟩, h.names, h.distinct,
    fun kind name owner expiry ho => h.opened kind name owner expiry (hsub _ _ _ ho), ?_, ?_,
    fun u hu kind => none_of_sub hsub (h.completed u hu kind), ?_⟩
  · intro j u hj
    rcases hheld j u hj with ⟨rfl, rfl⟩ | hj
    · obtain ⟨b, hb, hkind, hname, howner, hexpiry⟩ := h.opened _ _ _ _ hopened
      refine ⟨⟨b, hb, hkind, hname, howner, hexpiry ▸ htime⟩, fun kind => ?_⟩
      dsimp only
      cases hclose : close s.opened u.kind u.name kind u.name with
      | none => rfl
      | some value =>
          obtain ⟨hstill, hother⟩ := of_close hclose
          exact absurd ⟨h.opened_unique hstill hopened, rfl⟩ hother
    · exact ⟨(h.held j u hj).1, fun kind => none_of_sub hsub ((h.held j u hj).2 kind)⟩
  · intro j j' u u' hj hj' hname
    rcases hheld j u hj with ⟨hi, ht⟩ | hold
    · rcases hheld j' u' hj' with ⟨hi', -⟩ | hold'
      · exact hi.trans hi'.symm
      · exact absurd (hname.symm.trans (congrArg Ticket.name ht)) (hunheld j' u' hold')
    · rcases hheld j' u' hj' with ⟨-, ht'⟩ | hold'
      · exact absurd (hname.trans (congrArg Ticket.name ht')) (hunheld j u hold)
      · exact h.alone j j' u u' hold hold' hname
  · intro j u hj
    rcases hheld j u hj with ⟨rfl, rfl⟩ | hj
    · intro hdone
      obtain ⟨c, hc, hname⟩ := List.mem_map.mp hdone
      have hnone : s.opened u.kind c.name = none := h.completed c hc u.kind
      rw [hname, hopened] at hnone
      cases hnone
    · exact h.unfinished j u hj

/-- A fresh name is not held and not completed. -/
theorem Accounted.issue (h : Accounted ttl es s) (hfresh : t.name ∉ s.names) :
    Accounted ttl (.issued t :: es)
      { opened := Function.update s.opened t.kind
          (Function.update (s.opened t.kind) t.name (some (t.owner, t.time + ttl)))
        held := Function.update s.held i none
        names := t.name :: s.names } := by
  have hnew : ∀ u, Backed ttl es u → u.name ≠ t.name := by
    rintro u ⟨b, hb, -, hname, -⟩ heq
    exact hfresh (heq ▸ hname ▸ h.names b hb)
  have hopened : ∀ kind name, name ≠ t.name → Function.update s.opened t.kind (Function.update
      (s.opened t.kind) t.name (some (t.owner, t.time + ttl))) kind name = s.opened kind name := by
    intro kind name hname
    rcases eq_or_ne kind t.kind with rfl | hkind
    · rw [Function.update_self, Function.update_of_ne hname]
    · rw [Function.update_of_ne hkind]
  refine ⟨⟨h.once, fun u hu => (h.backed u hu).cons⟩, ?_, ?_, ?_, ?_,
    fun j j' u u' hj hj' => h.alone j j' u u' (held_of_drop hj) (held_of_drop hj'), ?_,
    fun j u hj => h.unfinished j u (held_of_drop hj)⟩
  · intro b hb
    rcases List.mem_cons.mp hb with rfl | hb
    · exact List.mem_cons_self
    · exact List.mem_cons_of_mem _ (h.names b hb)
  · refine List.nodup_cons.mpr ⟨fun hmem => ?_, h.distinct⟩
    obtain ⟨b, hb, hname⟩ := List.mem_map.mp hmem
    exact hfresh (hname ▸ h.names b hb)
  · intro kind name owner expiry ho
    dsimp only at ho
    rcases eq_or_ne kind t.kind with rfl | hkind
    · rw [Function.update_self] at ho
      rcases eq_or_ne name t.name with rfl | hname
      · rw [Function.update_self] at ho
        cases ho
        exact ⟨t, List.mem_cons_self, rfl, rfl, rfl, rfl⟩
      · rw [Function.update_of_ne hname] at ho
        obtain ⟨b, hb, hmatch⟩ := h.opened _ _ _ _ ho
        exact ⟨b, List.mem_cons_of_mem _ hb, hmatch⟩
    · rw [Function.update_of_ne hkind] at ho
      obtain ⟨b, hb, hmatch⟩ := h.opened _ _ _ _ ho
      exact ⟨b, List.mem_cons_of_mem _ hb, hmatch⟩
  · intro j u hj
    obtain ⟨hbacked, hnone⟩ := h.held j u (held_of_drop hj)
    refine ⟨hbacked.cons, fun kind => ?_⟩
    exact (hopened kind u.name (hnew u hbacked)).trans (hnone kind)
  · intro u hu kind
    exact (hopened kind u.name (hnew u (h.backed u hu))).trans (h.completed u hu kind)

/-- The step rule. -/
theorem Accounted.step (h : Accounted ttl es s) (hstep : TicketStep ttl s e u) :
    Accounted ttl (e :: es) u := by
  cases hstep with
  | issued hfresh => exact h.issue hfresh
  | claimed hopened htime => exact h.claim hopened htime
  | spoiled =>
      exact h.shrink (fun _ _ _ ho => (of_close ho).1) (fun _ _ hj => held_of_drop hj) rfl
  | completed hheld => exact h.complete hheld
  | dropped => exact h.shrink (fun _ _ _ ho => ho) (fun _ _ hj => held_of_drop hj) rfl
  | other => exact h.shrink (fun _ _ _ ho => ho) (fun _ _ hj => hj) rfl

/-- Over every run of a system that handles tickets this way, every name is completed at most
once, by its owner and in time. -/
theorem honoured_run {σ κ' : Type} {step : σ → κ' → σ → Prop} {counter : σ → Counter ι κ ν ω}
    {event : κ' → TicketEvent κ ν ω} {s₀ t₀ : σ} {ks : List κ'} (h : Run step s₀ ks t₀)
    (hstart : counter s₀ = start)
    (hstep : ∀ s k t, step s k t → TicketStep ttl (counter s) (event k) (counter t)) :
    Honoured ttl (ks.map event) := by
  have haccounted : Accounted ttl (ks.map event) (counter t₀) := by
    induction h with
    | start =>
        rw [hstart]
        exact accounted_start
    | next _ hk ih => exact ih.step (hstep _ _ _ hk)
  exact haccounted.toHonoured

end Steps

end Tickets
