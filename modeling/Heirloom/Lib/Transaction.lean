import Mathlib.Logic.Unique

/-!
# Transactions

A transaction reads a context, transforms a state and either returns a value or
aborts. An aborted transaction has no effect: the error carries no state, so a
caller that sees an error keeps the state it had.

The file gives the operations, and for each of them three rules:
* `ok_…` inverts a successful run (`m r s = .ok (a, t)`), for use in a hypothesis;
* `err_…` inverts a run that aborts (`m r s = .error err`);
* `wp_…` computes the weakest condition under which every successful run ends
  in `Q` (`wp m Q r s`), for use in a goal. Partial correctness: a transaction
  that aborts satisfies every `Q`.

Loops come with an invariant rule (`wp_forEach`, `wp_foldEach`), and with a rule
for errors that no round can end in (`Avoids`).
-/

namespace Transaction

variable {ρ σ ε α β : Type}

/-- A transaction with context `ρ`, state `σ`, errors `ε` and result `α`. -/
def Tx (ρ σ ε α : Type) : Type := ρ → σ → Except ε (α × σ)

namespace Tx

instance : Monad (Tx ρ σ ε) where
  pure a := fun _ s => .ok (a, s)
  bind x f := fun r s =>
    match x r s with
    | .ok (a, t) => f a r t
    | .error err => .error err

/-! ## Operations -/

/-- Stops the transaction; nothing it did remains. -/
def abort (err : ε) : Tx ρ σ ε α := fun _ _ => .error err

/-- A value read off the context of the call. -/
def ask (f : ρ → α) : Tx ρ σ ε α := fun r s => .ok (f r, s)

/-- A value read off the state. -/
def read (f : σ → α) : Tx ρ σ ε α := fun _ s => .ok (f s, s)

/-- Replaces the state. -/
def update (f : σ → σ) : Tx ρ σ ε Unit := fun _ s => .ok ((), f s)

/-- Goes on if `c` holds and aborts with `err` otherwise. -/
def ensure (c : Prop) [Decidable c] (err : ε) : Tx ρ σ ε Unit := fun _ s =>
  if c then .ok ((), s) else .error err

/-- The value of `o`, or abort with `err`. -/
def fromSome (o : Option α) (err : ε) : Tx ρ σ ε α := fun _ s =>
  match o with
  | some a => .ok (a, s)
  | none => .error err

/-- Runs `m` if `c` holds. -/
def onlyIf (c : Prop) [Decidable c] (m : Tx ρ σ ε Unit) : Tx ρ σ ε Unit := fun r s =>
  if c then m r s else .ok ((), s)

/-- Runs `f` on the value of `o`, if there is one. -/
def ifSome (o : Option α) (f : α → Tx ρ σ ε Unit) : Tx ρ σ ε Unit := fun r s =>
  match o with
  | some a => f a r s
  | none => .ok ((), s)

/-- Runs `f` on the value of `o`, or `m` if there is none. -/
def ifSomeElse (o : Option α) (f : α → Tx ρ σ ε β) (m : Tx ρ σ ε β) : Tx ρ σ ε β :=
  match o with
  | some a => f a
  | none => m

/-- Runs `f` on the elements of a list, in order. -/
def forEach : List α → (α → Tx ρ σ ε Unit) → Tx ρ σ ε Unit
  | [], _ => pure ()
  | a :: as, f => f a >>= fun _ => forEach as f

/-- Runs `f` on the elements of a list, in order, with an accumulator. -/
def foldEach : List α → β → (β → α → Tx ρ σ ε β) → Tx ρ σ ε β
  | [], b, _ => pure b
  | a :: as, b, f => f b a >>= fun b' => foldEach as b' f

/-! ## Inversion of successful runs -/

section Inversion

variable {r : ρ} {s t : σ} {a a' : α} {b : β} {err : ε}

theorem ok_of_toOption {x : Except ε α} (h : x.toOption = some a) : x = .ok a := by
  cases x with
  | error _ => cases h
  | ok _ => rw [Option.some.inj h]

@[simp] theorem ok_pure : (pure a : Tx ρ σ ε α) r s = .ok (a', t) ↔ a = a' ∧ s = t := by
  simp [pure]

@[simp] theorem ok_bind {x : Tx ρ σ ε α} {f : α → Tx ρ σ ε β} :
    (x >>= f) r s = .ok (b, t) ↔ ∃ a u, x r s = .ok (a, u) ∧ f a r u = .ok (b, t) := by
  constructor
  · intro h
    cases hx : x r s with
    | error e => simp [bind, hx] at h
    | ok p =>
        obtain ⟨a, u⟩ := p
        exact ⟨a, u, rfl, by simpa [bind, hx] using h⟩
  · rintro ⟨a, u, hx, hf⟩
    simpa [bind, hx] using hf

@[simp] theorem ok_abort : (abort err : Tx ρ σ ε α) r s = .ok (a, t) ↔ False := by
  simp [abort]

@[simp] theorem ok_ask {f : ρ → α} :
    (ask f : Tx ρ σ ε α) r s = .ok (a, t) ↔ f r = a ∧ s = t := by
  simp [ask]

@[simp] theorem ok_read {f : σ → α} :
    (read f : Tx ρ σ ε α) r s = .ok (a, t) ↔ f s = a ∧ s = t := by
  simp [read]

@[simp] theorem ok_update {f : σ → σ} {u : Unit} :
    (update f : Tx ρ σ ε Unit) r s = .ok (u, t) ↔ f s = t := by
  simp [update]

@[simp] theorem ok_ensure {c : Prop} [Decidable c] {u : Unit} :
    (ensure c err : Tx ρ σ ε Unit) r s = .ok (u, t) ↔ c ∧ s = t := by
  by_cases hc : c <;> simp [ensure, hc]

@[simp] theorem ok_fromSome {o : Option α} :
    (fromSome o err : Tx ρ σ ε α) r s = .ok (a, t) ↔ o = some a ∧ s = t := by
  cases o <;> simp [fromSome]

@[simp] theorem ok_onlyIf {c : Prop} [Decidable c] {m : Tx ρ σ ε Unit} {u : Unit} :
    (onlyIf c m) r s = .ok (u, t) ↔ (c ∧ m r s = .ok (u, t)) ∨ (¬c ∧ s = t) := by
  by_cases hc : c <;> simp [onlyIf, hc]

@[simp] theorem ok_ifSome {o : Option α} {f : α → Tx ρ σ ε Unit} {u : Unit} :
    (ifSome o f) r s = .ok (u, t) ↔
      (∃ a, o = some a ∧ f a r s = .ok (u, t)) ∨ (o = none ∧ s = t) := by
  cases o <;> simp [ifSome]

@[simp] theorem ok_ifSomeElse {o : Option α} {f : α → Tx ρ σ ε β} {m : Tx ρ σ ε β} :
    (ifSomeElse o f m) r s = .ok (b, t) ↔
      (∃ a, o = some a ∧ f a r s = .ok (b, t)) ∨ (o = none ∧ m r s = .ok (b, t)) := by
  cases o <;> simp [ifSomeElse]

@[simp] theorem ok_ite {c : Prop} [Decidable c] {x y : Tx ρ σ ε α} :
    (if c then x else y) r s = .ok (a, t) ↔
      (c ∧ x r s = .ok (a, t)) ∨ (¬c ∧ y r s = .ok (a, t)) := by
  by_cases hc : c <;> simp [hc]

end Inversion

/-! ## Inversion of runs that abort -/

section Errors

variable {r : ρ} {s : σ} {a : α} {err err' : ε}

@[simp] theorem err_pure : (pure a : Tx ρ σ ε α) r s = .error err ↔ False := by
  simp [pure]

@[simp] theorem err_bind {x : Tx ρ σ ε α} {f : α → Tx ρ σ ε β} :
    (x >>= f) r s = .error err ↔
      x r s = .error err ∨ ∃ a u, x r s = .ok (a, u) ∧ f a r u = .error err := by
  constructor
  · intro h
    cases hx : x r s with
    | error e => exact .inl (by simpa [bind, hx] using h)
    | ok p =>
        obtain ⟨a, u⟩ := p
        exact .inr ⟨a, u, rfl, by simpa [bind, hx] using h⟩
  · rintro (hx | ⟨a, u, hx, hf⟩)
    · simp [bind, hx]
    · simpa [bind, hx] using hf

theorem bind_of_ok {x : Tx ρ σ ε α} {f : α → Tx ρ σ ε β} {u : σ} (hx : x r s = .ok (a, u)) :
    (x >>= f) r s = f a r u := by
  simp [bind, hx]

theorem bind_of_error {x : Tx ρ σ ε α} {f : α → Tx ρ σ ε β} (hx : x r s = .error err) :
    (x >>= f) r s = .error err := by
  simp [bind, hx]

@[simp] theorem err_ask {f : ρ → α} : (ask f : Tx ρ σ ε α) r s = .error err ↔ False := by
  simp [ask]

@[simp] theorem err_read {f : σ → α} : (read f : Tx ρ σ ε α) r s = .error err ↔ False := by
  simp [read]

@[simp] theorem err_update {f : σ → σ} :
    (update f : Tx ρ σ ε Unit) r s = .error err ↔ False := by
  simp [update]

@[simp] theorem err_ensure {c : Prop} [Decidable c] :
    (ensure c err : Tx ρ σ ε Unit) r s = .error err' ↔ ¬c ∧ err = err' := by
  by_cases hc : c <;> simp [ensure, hc]

@[simp] theorem err_fromSome {o : Option α} :
    (fromSome o err : Tx ρ σ ε α) r s = .error err' ↔ o = none ∧ err = err' := by
  cases o <;> simp [fromSome]

@[simp] theorem err_onlyIf {c : Prop} [Decidable c] {m : Tx ρ σ ε Unit} :
    (onlyIf c m) r s = .error err ↔ c ∧ m r s = .error err := by
  by_cases hc : c <;> simp [onlyIf, hc]

@[simp] theorem err_ifSome {o : Option α} {f : α → Tx ρ σ ε Unit} :
    (ifSome o f) r s = .error err ↔ ∃ a, o = some a ∧ f a r s = .error err := by
  cases o <;> simp [ifSome]

@[simp] theorem err_ifSomeElse {o : Option α} {f : α → Tx ρ σ ε β} {m : Tx ρ σ ε β} :
    (ifSomeElse o f m) r s = .error err ↔
      (∃ a, o = some a ∧ f a r s = .error err) ∨ (o = none ∧ m r s = .error err) := by
  cases o <;> simp [ifSomeElse]

@[simp] theorem err_ite {c : Prop} [Decidable c] {x y : Tx ρ σ ε α} :
    (if c then x else y) r s = .error err ↔
      (c ∧ x r s = .error err) ∨ (¬c ∧ y r s = .error err) := by
  by_cases hc : c <;> simp [hc]

/-- `m` never aborts with `err`. -/
def Avoids (err : ε) (m : Tx ρ σ ε α) : Prop := ∀ r s, m r s ≠ .error err

theorem Avoids.bind {x : Tx ρ σ ε α} {f : α → Tx ρ σ ε β} (hx : Avoids err x)
    (hf : ∀ a, Avoids err (f a)) : Avoids err (x >>= f) := by
  intro r s h
  obtain h | ⟨a, u, _, h⟩ := err_bind.mp h
  · exact hx r s h
  · exact hf a r u h

theorem Avoids.foldEach {as : List α} {b : β} {f : β → α → Tx ρ σ ε β}
    (hf : ∀ b a, Avoids err (f b a)) : Avoids err (Tx.foldEach as b f) := by
  induction as generalizing b with
  | nil => exact fun _ _ h => err_pure.mp h
  | cons a as ih => exact (hf b a).bind fun _ => ih

end Errors

/-! ## Weakest preconditions -/

/-- Every successful run of `m` from `s` ends in `Q`. -/
def wp (m : Tx ρ σ ε α) (Q : α → σ → Prop) (r : ρ) (s : σ) : Prop :=
  ∀ a t, m r s = .ok (a, t) → Q a t

section Rules

variable {r : ρ} {s : σ} {a : α} {err : ε} {Q Q' : α → σ → Prop}

theorem wp_mono {m : Tx ρ σ ε α} (h : wp m Q r s) (hQ : ∀ a t, Q a t → Q' a t) :
    wp m Q' r s :=
  fun a t hm => hQ a t (h a t hm)

theorem wp_and {m : Tx ρ σ ε α} (h : wp m Q r s) (h' : wp m Q' r s) :
    wp m (fun a t => Q a t ∧ Q' a t) r s :=
  fun a t hm => ⟨h a t hm, h' a t hm⟩

@[simp ↓] theorem wp_pure : wp (pure a : Tx ρ σ ε α) Q r s ↔ Q a s := by
  simp [wp]

@[simp ↓] theorem wp_bind {x : Tx ρ σ ε α} {f : α → Tx ρ σ ε β} {Q : β → σ → Prop} :
    wp (x >>= f) Q r s ↔ wp x (fun a t => wp (f a) Q r t) r s := by
  simp only [wp, ok_bind]
  constructor
  · intro h a u hx b t hf
    exact h b t ⟨a, u, hx, hf⟩
  · rintro h b t ⟨a, u, hx, hf⟩
    exact h a u hx b t hf

/-- What the first part of a transaction has found out of the past stays true. -/
theorem wp_bind_of_first {x : Tx ρ σ ε α} {f : α → Tx ρ σ ε β} {P : Prop}
    (h : wp x (fun _ _ => P) r s) : wp (x >>= f) (fun _ _ => P) r s := by
  intro b t hm
  obtain ⟨a, u, hx, -⟩ := ok_bind.mp hm
  exact h a u hx

@[simp ↓] theorem wp_abort : wp (abort err : Tx ρ σ ε α) Q r s ↔ True := by
  simp [wp]

@[simp ↓] theorem wp_ask {f : ρ → α} : wp (ask f : Tx ρ σ ε α) Q r s ↔ Q (f r) s := by
  simp [wp]

@[simp ↓] theorem wp_read {f : σ → α} : wp (read f : Tx ρ σ ε α) Q r s ↔ Q (f s) s := by
  simp [wp]

@[simp ↓] theorem wp_update {f : σ → σ} {Q : Unit → σ → Prop} :
    wp (update f : Tx ρ σ ε Unit) Q r s ↔ Q () (f s) := by
  simp [wp, Unique.forall_iff]

@[simp ↓] theorem wp_ensure {c : Prop} [Decidable c] {Q : Unit → σ → Prop} :
    wp (ensure c err : Tx ρ σ ε Unit) Q r s ↔ (c → Q () s) := by
  simp [wp, Unique.forall_iff]

@[simp ↓] theorem wp_fromSome {o : Option α} :
    wp (fromSome o err : Tx ρ σ ε α) Q r s ↔ ∀ a, o = some a → Q a s := by
  simp only [wp, ok_fromSome]
  exact ⟨fun h a ho => h a s ⟨ho, rfl⟩, fun h a t ⟨ho, hs⟩ => hs ▸ h a ho⟩

@[simp ↓] theorem wp_onlyIf {c : Prop} [Decidable c] {m : Tx ρ σ ε Unit} {Q : Unit → σ → Prop} :
    wp (onlyIf c m) Q r s ↔ (c → wp m Q r s) ∧ (¬c → Q () s) := by
  by_cases hc : c <;> simp [wp, hc, Unique.forall_iff]

@[simp ↓] theorem wp_ifSome {o : Option α} {f : α → Tx ρ σ ε Unit} {Q : Unit → σ → Prop} :
    wp (ifSome o f) Q r s ↔ (∀ a, o = some a → wp (f a) Q r s) ∧ (o = none → Q () s) := by
  cases o <;> simp [wp, Unique.forall_iff]

@[simp ↓] theorem wp_ifSomeElse {o : Option β} {f : β → Tx ρ σ ε α} {m : Tx ρ σ ε α} :
    wp (ifSomeElse o f m) Q r s ↔
      (∀ b, o = some b → wp (f b) Q r s) ∧ (o = none → wp m Q r s) := by
  cases o <;> simp [ifSomeElse]

@[simp ↓] theorem wp_ite {c : Prop} [Decidable c] {x y : Tx ρ σ ε α} :
    wp (if c then x else y) Q r s ↔ (c → wp x Q r s) ∧ (¬c → wp y Q r s) := by
  by_cases hc : c <;> simp [hc]

/-- The loop rule: an invariant that each round keeps holds after the loop. -/
theorem wp_forEach {I : σ → Prop} {as : List α} {f : α → Tx ρ σ ε Unit}
    (hstep : ∀ a, a ∈ as → ∀ t, I t → wp (f a) (fun _ u => I u) r t) (hs : I s) :
    wp (forEach as f) (fun _ t => I t) r s := by
  induction as generalizing s with
  | nil => simpa [forEach] using hs
  | cons a as ih =>
      simp only [forEach, wp_bind]
      refine wp_mono (hstep a List.mem_cons_self s hs) fun _ t ht => ?_
      exact ih (fun b hb => hstep b (List.mem_cons_of_mem a hb)) ht

/-- A loop that brings about `P a` for each `a`, if no round undoes it. -/
theorem wp_forEach_all {P : α → σ → Prop} {as : List α} {f : α → Tx ρ σ ε Unit}
    (hown : ∀ a t, wp (f a) (fun _ u => P a u) r t)
    (hkeep : ∀ a b t, P b t → wp (f a) (fun _ u => P b u) r t) :
    wp (forEach as f) (fun _ t => ∀ a ∈ as, P a t) r s := by
  induction as generalizing s with
  | nil => simp [forEach]
  | cons a as ih =>
      simp only [forEach, wp_bind, List.forall_mem_cons]
      refine wp_mono (hown a s) fun _ t ht => wp_and ?_ ih
      exact wp_forEach (fun b _ u hu => hkeep b a u hu) ht

/-- A loop whose rounds each apply `g` under the condition `C` applies all of them. -/
theorem wp_forEach_foldl {g : σ → α → σ} {C : α → Prop} {as : List α} {f : α → Tx ρ σ ε Unit}
    (hstep : ∀ a t, wp (f a) (fun _ u => u = g t a ∧ C a) r t) :
    wp (forEach as f) (fun _ t => t = as.foldl g s ∧ ∀ a ∈ as, C a) r s := by
  induction as generalizing s with
  | nil => simp [forEach]
  | cons a as ih =>
      simp only [forEach, wp_bind]
      refine wp_mono (hstep a s) ?_
      rintro _ _ ⟨rfl, ha⟩
      refine wp_mono ih ?_
      rintro _ _ ⟨rfl, has⟩
      exact ⟨rfl, by simpa using ⟨ha, has⟩⟩

/-- A loop of checks that leave the state alone makes all of them. -/
theorem wp_forEach_checks {C : α → Prop} {as : List α} {f : α → Tx ρ σ ε Unit}
    (hcheck : ∀ a, wp (f a) (fun _ t => t = s ∧ C a) r s) :
    wp (forEach as f) (fun _ t => t = s ∧ ∀ a ∈ as, C a) r s := by
  induction as with
  | nil => simp [forEach]
  | cons a as ih =>
      simp only [forEach, wp_bind]
      refine wp_mono (hcheck a) ?_
      rintro _ _ ⟨rfl, ha⟩
      exact wp_mono ih fun _ t ht => ⟨ht.1, List.forall_mem_cons.mpr ⟨ha, ht.2⟩⟩

/-- The loop rule for a loop with an accumulator. -/
theorem wp_foldEach {I : β → σ → Prop} {as : List α} {b : β} {f : β → α → Tx ρ σ ε β}
    (hstep : ∀ a, a ∈ as → ∀ b t, I b t → wp (f b a) I r t) (hs : I b s) :
    wp (foldEach as b f) I r s := by
  induction as generalizing b s with
  | nil => simpa [foldEach] using hs
  | cons a as ih =>
      simp only [foldEach, wp_bind]
      refine wp_mono (hstep a List.mem_cons_self b s hs) fun b' t ht => ?_
      exact ih (fun x hx => hstep x (List.mem_cons_of_mem a hx)) ht

/-- A loop whose rounds only compute: what it returns, and when it does. -/
theorem ok_foldEach_foldl {g : β → α → β} {C : α → Prop} {as : List α} {b b' : β} {t : σ}
    {f : β → α → Tx ρ σ ε β}
    (hstep : ∀ b a b' t, f b a r s = .ok (b', t) ↔ C a ∧ b' = g b a ∧ s = t) :
    foldEach as b f r s = .ok (b', t) ↔ (∀ a ∈ as, C a) ∧ b' = as.foldl g b ∧ s = t := by
  induction as generalizing b with
  | nil =>
      simp only [foldEach, ok_pure, List.foldl_nil]
      exact ⟨fun ⟨hb, ht⟩ => ⟨by simp, hb.symm, ht⟩, fun ⟨_, hb, ht⟩ => ⟨hb.symm, ht⟩⟩
  | cons a as ih =>
      simp only [foldEach, ok_bind, hstep, List.forall_mem_cons, List.foldl_cons]
      constructor
      · rintro ⟨_, _, ⟨ha, rfl, rfl⟩, hrest⟩
        obtain ⟨has, rfl, rfl⟩ := ih.mp hrest
        exact ⟨⟨ha, has⟩, rfl, rfl⟩
      · rintro ⟨⟨ha, has⟩, rfl, rfl⟩
        exact ⟨_, s, ⟨ha, rfl, rfl⟩, ih.mpr ⟨has, rfl, rfl⟩⟩

/-- What a loop of such rounds has computed, when some of their checks are left out. -/
theorem wp_foldEach_foldl {g : β → α → β} {C : α → Prop} {as : List α} {b : β}
    {f : β → α → Tx ρ σ ε β}
    (hstep : ∀ b a, wp (f b a) (fun b' t => t = s ∧ b' = g b a ∧ C a) r s) :
    wp (foldEach as b f) (fun b' t => t = s ∧ b' = as.foldl g b ∧ ∀ a ∈ as, C a) r s := by
  induction as generalizing b with
  | nil => simp [foldEach]
  | cons a as ih =>
      simp only [foldEach, wp_bind]
      refine wp_mono (hstep b a) ?_
      rintro _ _ ⟨rfl, rfl, ha⟩
      exact wp_mono ih fun _ t ht => ⟨ht.1, ht.2.1, List.forall_mem_cons.mpr ⟨ha, ht.2.2⟩⟩

/-! ## Transactions that only read -/

/-- `m` leaves the state alone. -/
def ReadOnly (m : Tx ρ σ ε α) : Prop := ∀ r s, wp m (fun _ t => t = s) r s

/-- A transaction that only reads can be kept closed: what is known of its result
is that it was returned. -/
theorem ReadOnly.wp_iff {m : Tx ρ σ ε α} (h : ReadOnly m) :
    wp m Q r s ↔ ∀ a, m r s = .ok (a, s) → Q a s := by
  constructor
  · intro hw a hm
    exact hw a s hm
  · intro hq a t hm
    obtain rfl : t = s := h r s a t hm
    exact hq a hm

/-! Two transactions that do the same from a given state. -/

theorem bind_congr_left {x y : Tx ρ σ ε α} {f : α → Tx ρ σ ε β} (h : x r s = y r s) :
    (x >>= f) r s = (y >>= f) r s := by
  simp [bind, h]

theorem bind_congr_right {x : Tx ρ σ ε α} {f g : α → Tx ρ σ ε β}
    (h : ∀ a t, x r s = .ok (a, t) → f a r t = g a r t) : (x >>= f) r s = (x >>= g) r s := by
  cases hx : x r s with
  | error err => rw [bind_of_error hx, bind_of_error hx]
  | ok p => rw [bind_of_ok hx, bind_of_ok hx, h p.1 p.2 hx]

/-- Loops whose rounds only read and do the same do the same. -/
theorem ReadOnly.foldEach_congr {as : List α} {b : β} {f g : β → α → Tx ρ σ ε β}
    (hf : ∀ b a, ReadOnly (f b a)) (h : ∀ a ∈ as, ∀ b, f b a r s = g b a r s) :
    Tx.foldEach as b f r s = Tx.foldEach as b g r s := by
  induction as generalizing b with
  | nil => rfl
  | cons a as ih =>
      obtain ⟨hhead, htail⟩ := List.forall_mem_cons.mp h
      show (f b a >>= fun b' => Tx.foldEach as b' f) r s =
        (g b a >>= fun b' => Tx.foldEach as b' g) r s
      rw [← bind_congr_left (hhead b)]
      refine bind_congr_right fun b' t ht => ?_
      obtain rfl : t = s := hf b a r s b' t ht
      exact ih htail

/-- A loop of transactions that only read only reads. -/
theorem ReadOnly.forEach {as : List α} {f : α → Tx ρ σ ε Unit} (h : ∀ a, ReadOnly (f a)) :
    ReadOnly (Tx.forEach as f) :=
  fun r s => wp_forEach (fun a _ t ht => by subst ht; exact h a r t) rfl

end Rules

end Tx

end Transaction
