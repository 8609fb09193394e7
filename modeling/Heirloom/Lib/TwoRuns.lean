import Heirloom.Lib.StorageTx

/-!
# Two runs of a transaction

`Both m m' Q r s t`: from `s` and `t` the transactions `m` and `m'` both succeed, and
`Q` holds of the two results, or both abort with the same error. The rules follow the
two runs step by step, as long as they take the same branches.
-/

namespace Transaction.Tx

open TypedStore

variable {ρ σ ε α β α' β' : Type}

/-- The two runs succeed with `Q`, or fail in the same way. -/
def Both (m : Tx ρ σ ε α) (m' : Tx ρ σ ε α') (Q : α → σ → α' → σ → Prop) (r : ρ) (s t : σ) : Prop :=
  (∃ a u a' v, m r s = .ok (a, u) ∧ m' r t = .ok (a', v) ∧ Q a u a' v) ∨
    ∃ err, m r s = .error err ∧ m' r t = .error err

/-- The result of a run, without the state it ends in. -/
def outcome (m : Tx ρ σ ε α) (r : ρ) (s : σ) : Except ε α := (m r s).map Prod.fst

section Rules

variable {r : ρ} {s t : σ} {err : ε}

theorem Both.outcome_eq {m m' : Tx ρ σ ε α} (h : Both m m' (fun a _ a' _ => a = a') r s t) :
    m.outcome r s = m'.outcome r t := by
  rcases h with ⟨a, u, a', v, hm, hm', rfl⟩ | ⟨err, hm, hm'⟩
  · simp [outcome, hm, hm', Except.map]
  · simp [outcome, hm, hm', Except.map]

theorem Both.mono {m : Tx ρ σ ε α} {m' : Tx ρ σ ε α'} {Q Q' : α → σ → α' → σ → Prop}
    (h : Both m m' Q r s t) (hQ : ∀ a u a' v, Q a u a' v → Q' a u a' v) : Both m m' Q' r s t := by
  rcases h with ⟨a, u, a', v, hm, hm', hq⟩ | herr
  · exact .inl ⟨a, u, a', v, hm, hm', hQ a u a' v hq⟩
  · exact .inr herr

theorem both_of_ok {m : Tx ρ σ ε α} {m' : Tx ρ σ ε α'} {Q : α → σ → α' → σ → Prop} {a : α} {a' : α'}
    {u v : σ} (hm : m r s = .ok (a, u)) (hm' : m' r t = .ok (a', v)) (hQ : Q a u a' v) :
    Both m m' Q r s t :=
  .inl ⟨a, u, a', v, hm, hm', hQ⟩

theorem both_pure {a : α} {a' : α'} {Q : α → σ → α' → σ → Prop} (hQ : Q a s a' t) :
    Both (pure a : Tx ρ σ ε α) (pure a') Q r s t :=
  both_of_ok rfl rfl hQ

theorem both_abort {Q : α → σ → α' → σ → Prop} :
    Both (abort err : Tx ρ σ ε α) (abort err : Tx ρ σ ε α') Q r s t :=
  .inr ⟨err, rfl, rfl⟩

theorem both_bind {x : Tx ρ σ ε α} {x' : Tx ρ σ ε α'} {f : α → Tx ρ σ ε β} {f' : α' → Tx ρ σ ε β'}
    {Q : β → σ → β' → σ → Prop}
    (h : Both x x' (fun a u a' v => Both (f a) (f' a') Q r u v) r s t) :
    Both (x >>= f) (x' >>= f') Q r s t := by
  rcases h with ⟨a, u, a', v, hx, hx', hrest⟩ | ⟨err, hx, hx'⟩
  · rcases hrest with ⟨b, u', b', v', hf, hf', hQ⟩ | ⟨err, hf, hf'⟩
    · exact .inl ⟨b, u', b', v', ok_bind.mpr ⟨a, u, hx, hf⟩, ok_bind.mpr ⟨a', v, hx', hf'⟩, hQ⟩
    · exact .inr ⟨err, err_bind.mpr (.inr ⟨a, u, hx, hf⟩), err_bind.mpr (.inr ⟨a', v, hx', hf'⟩)⟩
  · exact .inr ⟨err, err_bind.mpr (.inl hx), err_bind.mpr (.inl hx')⟩

/-- A part that both runs pass in the same way, with the states left alone. -/
theorem both_bind_of_ok {x : Tx ρ σ ε α} {x' : Tx ρ σ ε α'} {f : α → Tx ρ σ ε β}
    {f' : α' → Tx ρ σ ε β'} {Q : β → σ → β' → σ → Prop} {a : α} {a' : α'} {u v : σ}
    (hx : x r s = .ok (a, u)) (hx' : x' r t = .ok (a', v)) (h : Both (f a) (f' a') Q r u v) :
    Both (x >>= f) (x' >>= f') Q r s t :=
  both_bind (both_of_ok hx hx' h)

theorem both_ensure {c c' : Prop} [Decidable c] [Decidable c'] {Q : Unit → σ → Unit → σ → Prop}
    (hiff : c ↔ c') (hQ : c → Q () s () t) :
    Both (ensure c err : Tx ρ σ ε Unit) (ensure c' err) Q r s t := by
  by_cases hc : c
  · exact both_of_ok (by simp [hc]) (by simp [hiff.mp hc]) (hQ hc)
  · exact .inr ⟨err, by simp [hc], by simpa using fun hc' => hc (hiff.mpr hc')⟩

theorem both_fromSome {o : Option α} {o' : Option α'} {Q : α → σ → α' → σ → Prop}
    (hiff : o.isSome = o'.isSome) (hQ : ∀ a a', o = some a → o' = some a' → Q a s a' t) :
    Both (fromSome o err : Tx ρ σ ε α) (fromSome o' err) Q r s t := by
  cases o with
  | none =>
      obtain rfl : o' = none := by simpa using hiff.symm
      exact .inr ⟨err, by simp, by simp⟩
  | some a =>
      obtain ⟨a', rfl⟩ := Option.isSome_iff_exists.mp (hiff.symm.trans rfl)
      exact both_of_ok (by simp) (by simp) (hQ a a' rfl rfl)

theorem both_ifSomeElse {o : Option α} {o' : Option α'} {f : α → Tx ρ σ ε β} {f' : α' → Tx ρ σ ε β'}
    {m : Tx ρ σ ε β} {m' : Tx ρ σ ε β'} {Q : β → σ → β' → σ → Prop} (hiff : o.isSome = o'.isSome)
    (hsome : ∀ a a', o = some a → o' = some a' → Both (f a) (f' a') Q r s t)
    (hnone : o = none → Both m m' Q r s t) : Both (ifSomeElse o f m) (ifSomeElse o' f' m') Q r s t := by
  cases o with
  | none =>
      obtain rfl : o' = none := by simpa using hiff.symm
      exact hnone rfl
  | some a =>
      obtain ⟨a', rfl⟩ := Option.isSome_iff_exists.mp (hiff.symm.trans rfl)
      exact hsome a a' rfl rfl

end Rules

section Stores

variable {K : Type} {V : K → Type} {s t : Store V} {r : ρ} {k : K}

theorem both_load {Q : Option (V k) → Store V → Option (V k) → Store V → Prop}
    (hQ : Q (s.get k) s (t.get k) t) :
    Both (load k : Tx ρ (Store V) ε _) (load k) Q r s t :=
  .inl ⟨_, _, _, _, rfl, rfl, hQ⟩

end Stores

end Transaction.Tx
