import Heirloom.Results.Deadlines
import Mathlib.Logic.Function.Iterate

/-!
# Decay of the time to live

`apply_ttl_decay` writes its result as a check-in time that lies as far back as it takes for the
deadline to come out right, so the vault is just as silent after the call as before, and the next
call in the same second decays what is left once more.

* `decay_charged_once_iff`: any number of calls at one time has the effect of one exactly if the
  owner has not been silent, or nothing remains, or the first call succeeds and leaves nothing or
  makes the second one fail.
* `second_decay_at_once`: two calls in one second leave less than one.
-/

namespace Heirloom

open Transaction Runs

/-! ## One call -/

namespace Vault

/-- The time that is left at `now`. -/
def ttl (v : Vault) (now : Nat) : Nat := v.deadline - now

/-- The owner has been silent for 30 days, counted from the last check-in that the vault has. -/
def Silent (v : Vault) (now : Nat) : Prop := v.lastCheckIn + thirtyDays ≤ now

/-- What decay at `rate` leaves. -/
def decayedTtl (v : Vault) (now rate : Nat) : Nat := v.ttl now * (10000 - rate) / 10000

/-- A call at `now` goes through and writes the deadline: the owner has been silent, and everything
stays in range. -/
def DecaysAt (v : Vault) (now rate : Nat) : Prop :=
  v.Silent now ∧ v.deadline ≤ u64Max ∧ v.DecayFits now rate

instance {v : Vault} {now rate : Nat} : Decidable (v.DecaysAt now rate) := by
  unfold DecaysAt Silent DecayFits
  infer_instance

/-- The vault after a call at `now`. -/
def afterDecay (now rate : Nat) (v : Vault) : Vault :=
  if v.DecaysAt now rate then
    v.withLastCheckIn (now + v.decayedTtl now rate - v.checkInInterval)
  else v

variable {v : Vault} {now rate : Nat}

theorem ttl_afterDecay :
    (v.afterDecay now rate).ttl now =
      if v.DecaysAt now rate then v.decayedTtl now rate else v.ttl now := by
  unfold afterDecay
  split
  · next h =>
      obtain ⟨-, -, hinterval⟩ := h.2.2.2 h.1
      have hle : v.checkInInterval ≤ now + v.decayedTtl now rate := hinterval
      simp only [ttl, deadline, withLastCheckIn_lastCheckIn, withLastCheckIn_checkInInterval]
      omega
  · rfl

theorem afterDecay_of_not (h : ¬ v.DecaysAt now rate) : v.afterDecay now rate = v := if_neg h

theorem decayedTtl_eq_zero (h : v.ttl now = 0) : v.decayedTtl now rate = 0 := by
  simp [decayedTtl, h]

theorem ttl_afterDecay_eq_zero (h : v.ttl now = 0) : (v.afterDecay now rate).ttl now = 0 := by
  rw [ttl_afterDecay]
  split
  · exact decayedTtl_eq_zero h
  · exact h

/-- Decay at a positive rate takes something away. -/
theorem decayedTtl_lt (hrate : rate ≠ 0) (h : v.ttl now ≠ 0) : v.decayedTtl now rate < v.ttl now := by
  have hpos : 0 < v.ttl now := Nat.pos_of_ne_zero h
  refine (Nat.div_lt_iff_lt_mul (by decide)).mpr (Nat.mul_lt_mul_of_pos_left ?_ hpos)
  omega

/-- A call that takes something away leaves the owner as silent as before. -/
theorem decaysAt_afterDecay (h : v.DecaysAt now rate) (hpos : v.ttl now ≠ 0) (hrate : rate ≠ 0) :
    (v.afterDecay now rate).DecaysAt now rate ↔
      v.checkInInterval ≤ now + (v.afterDecay now rate).decayedTtl now rate := by
  have httl : (v.afterDecay now rate).ttl now = v.decayedTtl now rate :=
    ttl_afterDecay.trans (if_pos h)
  have hless := decayedTtl_lt hrate hpos
  have hsame : (v.afterDecay now rate).checkInInterval = v.checkInInterval := by
    rw [afterDecay, if_pos h]
    rfl
  have hearlier : (v.afterDecay now rate).lastCheckIn ≤ v.lastCheckIn := by
    rw [afterDecay, if_pos h]
    simp only [ttl, deadline, withLastCheckIn_lastCheckIn] at hless ⊢
    omega
  obtain ⟨hsilent, hdeadline, hsum, hfits⟩ := h
  obtain ⟨hmax, hproduct, -⟩ := hfits hsilent
  constructor
  · rintro ⟨hsilent', -, -, hfits'⟩
    exact hsame ▸ (hfits' hsilent').2.2
  · intro hinterval
    refine ⟨?_, ?_, ?_, fun _ => ⟨hmax, ?_, hsame ▸ hinterval⟩⟩
    · exact le_trans (Nat.add_le_add_right hearlier _) hsilent
    · refine le_trans ?_ hdeadline
      rw [deadline, hsame]
      exact Nat.add_le_add_right hearlier _
    · exact le_trans (Nat.add_le_add_right hearlier _) hsum
    · refine le_trans (Nat.mul_le_mul_right _ ?_) hproduct
      exact httl.trans_le hless.le

/-! ## Several calls -/

/-- The remaining time after each of several calls at `now` is that after the first, which is what
decay leaves if the owner has been silent. -/
def ChargedOnce (v : Vault) (now rate : Nat) : Prop :=
  (∀ n, ((afterDecay now rate)^[n + 1] v).ttl now = (v.afterDecay now rate).ttl now) ∧
    (v.Silent now → (v.afterDecay now rate).ttl now = v.decayedTtl now rate)

/-- Nothing remains, or the first call leaves nothing or makes the second one fail. -/
def Exhausted (v : Vault) (now rate : Nat) : Prop :=
  v.ttl now = 0 ∨ v.DecaysAt now rate ∧ (v.decayedTtl now rate = 0 ∨
    now + v.decayedTtl now rate * (10000 - rate) / 10000 < v.checkInInterval)

theorem iterate_afterDecay_of_not (h : ¬ (v.afterDecay now rate).DecaysAt now rate) (n : Nat) :
    (afterDecay now rate)^[n + 1] v = v.afterDecay now rate :=
  (Function.iterate_succ_apply _ n v).trans (Function.iterate_fixed (afterDecay_of_not h) n)

theorem ttl_iterate_eq_zero (h : v.ttl now = 0) (n : Nat) :
    ((afterDecay now rate)^[n] v).ttl now = 0 := by
  induction n with
  | zero => exact h
  | succ n ih =>
      rw [Function.iterate_succ_apply']
      exact ttl_afterDecay_eq_zero ih

theorem chargedOnce_of_zero (h : v.ttl now = 0) : v.ChargedOnce now rate := by
  have hone : (v.afterDecay now rate).ttl now = 0 := ttl_afterDecay_eq_zero h
  exact ⟨fun n => (ttl_iterate_eq_zero h (n + 1)).trans hone.symm,
    fun _ => hone.trans (decayedTtl_eq_zero h).symm⟩

theorem chargedOnce_iff (hrate : rate ≠ 0) :
    v.ChargedOnce now rate ↔ (v.Silent now → v.Exhausted now rate) := by
  constructor
  · rintro ⟨honce, hfirst⟩ hsilent
    by_cases hzero : v.ttl now = 0
    · exact .inl hzero
    have hdecays : v.DecaysAt now rate := by
      by_contra hnot
      have hsame := hfirst hsilent
      rw [afterDecay_of_not hnot] at hsame
      exact absurd hsame (decayedTtl_lt hrate hzero).ne'
    refine .inr ⟨hdecays, ?_⟩
    have httl : (v.afterDecay now rate).ttl now = v.decayedTtl now rate :=
      ttl_afterDecay.trans (if_pos hdecays)
    by_cases hnothing : v.decayedTtl now rate = 0
    · exact .inl hnothing
    refine .inr (not_le.mp fun hinterval => ?_)
    -- the second call takes something away
    have hagain : (v.afterDecay now rate).DecaysAt now rate := by
      rw [decaysAt_afterDecay hdecays hzero hrate, decayedTtl, httl]
      exact hinterval
    have hsame := honce 1
    rw [Function.iterate_succ_apply', Function.iterate_one, ttl_afterDecay, if_pos hagain] at hsame
    exact absurd hsame (decayedTtl_lt hrate (httl ▸ hnothing)).ne
  · intro h
    by_cases hdecays : v.DecaysAt now rate
    swap
    · by_cases hsilent : v.Silent now
      · rcases h hsilent with hzero | ⟨hdecays', -⟩
        · exact chargedOnce_of_zero hzero
        · exact absurd hdecays' hdecays
      · have hsame := afterDecay_of_not hdecays
        exact ⟨fun n => congrArg (ttl · now) (iterate_afterDecay_of_not (hsame.symm ▸ hdecays) n),
          fun hsilent' => absurd hsilent' hsilent⟩
    have httl : (v.afterDecay now rate).ttl now = v.decayedTtl now rate :=
      ttl_afterDecay.trans (if_pos hdecays)
    rcases h hdecays.1 with hzero | ⟨-, hnothing | hfails⟩
    · exact chargedOnce_of_zero hzero
    · have hzero : (v.afterDecay now rate).ttl now = 0 := httl.trans hnothing
      refine ⟨fun n => ?_, fun _ => httl⟩
      rw [Function.iterate_succ_apply]
      exact (ttl_iterate_eq_zero hzero n).trans hzero.symm
    · by_cases hzero : v.ttl now = 0
      · exact chargedOnce_of_zero hzero
      have hblocked : ¬ (v.afterDecay now rate).DecaysAt now rate := by
        rw [decaysAt_afterDecay hdecays hzero hrate, decayedTtl, httl]
        exact not_le.mpr hfails
      exact ⟨fun n => congrArg (ttl · now) (iterate_afterDecay_of_not hblocked n), fun _ => httl⟩

end Vault

section Calls

variable {e : Env} {s t : State} {id : Nat} {v : Vault}

theorem ok_decayedTtl {remaining rate n : Nat} :
    decayedTtl remaining rate e s = .ok (n, t) ↔
      (rate ≤ 10000 ∧ remaining * (10000 - rate) ≤ u64Max) ∧
        n = remaining * (10000 - rate) / 10000 ∧ s = t := by
  simp only [decayedTtl, Tx.ok_bind, ok_subU, ok_u64, Tx.ok_pure]
  constructor
  · rintro ⟨_, _, ⟨hrate, rfl, rfl⟩, _, _, ⟨hproduct, rfl, rfl⟩, rfl, rfl⟩
    exact ⟨⟨hrate, hproduct⟩, rfl, rfl⟩
  · rintro ⟨⟨hrate, hproduct⟩, rfl, rfl⟩
    exact ⟨_, _, ⟨hrate, rfl, rfl⟩, _, _, ⟨hproduct, rfl, rfl⟩, rfl, rfl⟩

theorem ok_getTtlRemaining (hv : s.vault id = some v) {r : Option Nat}
    (h : getTtlRemaining id e s = .ok (r, t)) : r.getD 0 = v.ttl e.timestamp ∧ s = t := by
  simp only [getTtlRemaining, Tx.ok_bind, ok_tryLoadVault, Tx.ok_ifSomeElse, ok_u64, ok_timestamp,
    Tx.ok_pure] at h
  obtain ⟨_, _, ⟨rfl, rfl⟩, ⟨v', hv', _, _, ⟨_, rfl, rfl⟩, _, _, ⟨rfl, rfl⟩, rfl, rfl⟩ |
    ⟨hnone, -⟩⟩ := h
  · obtain rfl := Option.some.inj (hv.symm.trans hv')
    refine ⟨?_, rfl⟩
    simp only [Vault.ttl, Vault.deadline]
    split
    · simp only [Option.getD_none]
      omega
    · rfl
  · rw [hv] at hnone
    cases hnone

theorem ok_getTtlDecayRate {n : Nat} :
    getTtlDecayRate e s = .ok (n, t) ↔ n = s.decayRate ∧ s = t := by
  simp only [getTtlDecayRate, Tx.ok_bind, ok_storageGet, Tx.ok_pure, State.decayRate]
  constructor
  · rintro ⟨_, _, ⟨rfl, rfl⟩, rfl, rfl⟩
    exact ⟨rfl, rfl⟩
  · rintro ⟨rfl, rfl⟩
    exact ⟨_, _, ⟨rfl, rfl⟩, rfl, rfl⟩

/-- Where the call succeeds, it reports the time that is then left. -/
theorem ok_applyTtlDecay (hv : s.vault id = some v) (hrate : s.decayRate ≠ 0) {n : Nat}
    (h : applyTtlDecay id e s = .ok (n, t)) :
    n = (v.afterDecay e.timestamp s.decayRate).ttl e.timestamp ∧
      t = if v.DecaysAt e.timestamp s.decayRate then
        s.put (.vault id) (v.afterDecay e.timestamp s.decayRate) else s := by
  simp only [applyTtlDecay, Tx.ok_bind, ok_loadVault, ok_require, ok_timestamp, Tx.ok_ite, ok_u64,
    ok_decayedTtl, ok_subU, ok_saveVault, ok_getTtlDecayRate, Tx.ok_pure] at h
  obtain ⟨v', _, ⟨hv', rfl⟩, _, _, ⟨-, rfl⟩, _, _, ⟨rfl, rfl⟩, _, _, ⟨rfl, rfl⟩, h⟩ := h
  obtain rfl := Option.some.inj (hv.symm.trans hv')
  rcases h with ⟨hzero, -⟩ | ⟨-, _, _, ⟨hsum, rfl, rfl⟩, h⟩
  · exact absurd hzero hrate
  rcases h with ⟨hearly, r, _, hget, rfl, rfl⟩ | ⟨hlate, _, _, ⟨hdeadline, rfl, rfl⟩, h⟩
  · have hnot : ¬ v.DecaysAt e.timestamp s.decayRate := fun h => absurd h.1 (not_le.mpr hearly)
    obtain ⟨hr, rfl⟩ := ok_getTtlRemaining hv hget
    rw [Vault.afterDecay_of_not hnot, if_neg hnot]
    exact ⟨hr, rfl⟩
  · obtain ⟨_, _, ⟨⟨hmax, hproduct⟩, rfl, rfl⟩, _, _, ⟨hnew, rfl, rfl⟩, _, _, ⟨hinterval, rfl, rfl⟩,
      _, _, rfl, rfl, rfl⟩ := h
    have hdecays : v.DecaysAt e.timestamp s.decayRate :=
      ⟨not_lt.mp hlate, hdeadline, hsum, fun _ => ⟨hmax, hproduct, hinterval⟩⟩
    rw [Vault.ttl_afterDecay, if_pos hdecays, if_pos hdecays, Vault.afterDecay, if_pos hdecays]
    exact ⟨rfl, rfl⟩

theorem applyTtlDecay_succeeds (hv : s.vault id = some v) (hlocked : v.status = .locked)
    (hrate : s.decayRate ≠ 0) (h : v.DecaysAt e.timestamp s.decayRate) :
    ∃ n t, applyTtlDecay id e s = .ok (n, t) := by
  obtain ⟨hsilent, hdeadline, hsum, hfits⟩ := h
  obtain ⟨hmax, hproduct, hinterval⟩ := hfits hsilent
  have hnew : e.timestamp + v.ttl e.timestamp * (10000 - s.decayRate) / 10000 ≤ u64Max := by
    have hle : v.ttl e.timestamp * (10000 - s.decayRate) / 10000 ≤ v.ttl e.timestamp := decayed_le
    have htime := e.timestamp_le
    unfold Vault.ttl at hle ⊢
    omega
  refine ⟨v.decayedTtl e.timestamp s.decayRate, s.put (.vault id) (v.withLastCheckIn
    (e.timestamp + v.decayedTtl e.timestamp s.decayRate - v.checkInInterval)), ?_⟩
  simp only [applyTtlDecay, Tx.ok_bind, ok_loadVault, ok_require, ok_timestamp, Tx.ok_ite, ok_u64,
    ok_decayedTtl, ok_subU, ok_saveVault, ok_getTtlDecayRate, Tx.ok_pure]
  exact ⟨v, s, ⟨hv, rfl⟩, (), s, ⟨hlocked, rfl⟩, _, s, ⟨rfl, rfl⟩, _, s, ⟨rfl, rfl⟩, .inr ⟨hrate, _, s,
    ⟨hsum, rfl, rfl⟩, .inr ⟨not_lt.mpr hsilent, _, s, ⟨hdeadline, rfl, rfl⟩, _, s,
      ⟨⟨hmax, hproduct⟩, rfl, rfl⟩, _, s, ⟨hnew, rfl, rfl⟩, _, s, ⟨hinterval, rfl, rfl⟩, (), _, rfl,
        rfl, rfl⟩⟩⟩

/-- The state after an attempt to apply decay: one that fails changes nothing. -/
def attemptDecay (id : Nat) (s : State) (e : Env) : State :=
  match applyTtlDecay id e s with
  | .ok (_, t) => t
  | .error _ => s

/-- An attempt changes the vault and nothing else. -/
theorem attemptDecay_eq (hv : s.vault id = some v) (hlocked : v.status = .locked)
    (hrate : s.decayRate ≠ 0) : attemptDecay id s e =
      if v.DecaysAt e.timestamp s.decayRate then
        s.put (.vault id) (v.afterDecay e.timestamp s.decayRate)
      else s := by
  unfold attemptDecay
  split
  · next h => exact (ok_applyTtlDecay hv hrate h).2
  · next h =>
      rw [if_neg]
      intro hdecays
      obtain ⟨n, t, hok⟩ := applyTtlDecay_succeeds hv hlocked hrate hdecays
      rw [hok] at h
      cases h

/-- The time that vault `id` has left at `now`. -/
def State.remaining (s : State) (id now : Nat) : Nat := (s.vault id).elim 0 (·.ttl now)

/-- Attempts at one time change the vault step by step. -/
theorem vault_attempts {es : List Env} {now : Nat} (hes : ∀ e ∈ es, e.timestamp = now)
    (hv : s.vault id = some v) (hlocked : v.status = .locked) (hrate : s.decayRate ≠ 0) :
    (es.foldl (attemptDecay id) s).vault id =
      some ((Vault.afterDecay now s.decayRate)^[es.length] v) := by
  induction es generalizing s v with
  | nil => exact hv
  | cons e es ih =>
      obtain ⟨rfl, hes⟩ := List.forall_mem_cons.mp hes
      have hvault : (attemptDecay id s e).vault id =
          some (v.afterDecay e.timestamp s.decayRate) := by
        rw [attemptDecay_eq hv hlocked hrate]
        split
        · simp
        · next hnot => rw [hv, Vault.afterDecay_of_not hnot]
      have hkeep : (attemptDecay id s e).decayRate = s.decayRate := by
        rw [attemptDecay_eq hv hlocked hrate]
        split <;> simp [State.decayRate]
      have hstatus : (v.afterDecay e.timestamp s.decayRate).status = .locked := by
        unfold Vault.afterDecay
        split <;> exact hlocked
      rw [List.foldl_cons, ih hes hvault hstatus (hkeep.symm ▸ hrate), hkeep, List.length_cons,
        Function.iterate_succ_apply]

end Calls

/-- Any number of further attempts by anyone in the second of a first one leave the time that the
first one leaves, which is what decay makes of the remaining time if the owner has been silent:
exactly if the owner has not, or nothing remains, or the first call succeeds and leaves nothing or
makes the check-in time of the second one negative. -/
theorem decay_charged_once_iff {e : Env} {s : State} {id : Nat} {v : Vault}
    (hv : s.vault id = some v) (hlocked : v.status = .locked) (hrate : s.decayRate ≠ 0) :
    (∀ es : List Env, (∀ e' ∈ es, e'.timestamp = e.timestamp) →
      ((e :: es).foldl (attemptDecay id) s).remaining id e.timestamp =
          (attemptDecay id s e).remaining id e.timestamp ∧
        (v.lastCheckIn + thirtyDays ≤ e.timestamp →
          (attemptDecay id s e).remaining id e.timestamp =
            (v.deadline - e.timestamp) * (10000 - s.decayRate) / 10000)) ↔
      (v.lastCheckIn + thirtyDays ≤ e.timestamp → v.Exhausted e.timestamp s.decayRate) := by
  have hremaining (es : List Env) (hes : ∀ e' ∈ es, e'.timestamp = e.timestamp) :
      (es.foldl (attemptDecay id) s).remaining id e.timestamp =
        ((Vault.afterDecay e.timestamp s.decayRate)^[es.length] v).ttl e.timestamp := by
    rw [State.remaining, vault_attempts hes hv hlocked hrate]
    rfl
  have hone : (attemptDecay id s e).remaining id e.timestamp =
      (v.afterDecay e.timestamp s.decayRate).ttl e.timestamp := by
    simpa only [List.foldl_cons, List.foldl_nil, List.length_singleton, Function.iterate_one] using
      hremaining [e] (List.forall_mem_singleton.mpr rfl)
  rw [hone, ← Vault.Silent, ← Vault.chargedOnce_iff hrate]
  constructor
  · intro h
    refine ⟨fun n => ?_, (h [] (by simp)).2⟩
    have hreplicate : ∀ e' ∈ List.replicate n e, e'.timestamp = e.timestamp :=
      fun e' he' => congrArg _ (List.eq_of_mem_replicate he')
    rw [← (h _ hreplicate).1, hremaining _ (List.forall_mem_cons.mpr ⟨rfl, hreplicate⟩),
      List.length_cons, List.length_replicate]
  · rintro ⟨honce, hfirst⟩ es hes
    refine ⟨?_, hfirst⟩
    rw [hremaining _ (List.forall_mem_cons.mpr ⟨rfl, hes⟩), List.length_cons]
    exact honce es.length

/-- A vault with ten days left and a rate of 100%: nothing is left after the first call. -/
theorem decay_charged_once_example : ∃ (s : State) (e : Env) (v : Vault), s.vault 1 = some v ∧
    v.status = .locked ∧ s.decayRate = 10000 ∧ v.ttl e.timestamp = 864000 ∧
      (attemptDecay 1 (attemptDecay 1 s e) e).remaining 1 e.timestamp = 0 := by
  have hplay : (play (initialised ⟨8⟩ ⟨9⟩)
      [(signedBy [⟨9⟩] 0, .admin (.setTtlDecayRate 10000)),
        (signedBy [⟨1⟩] 17280000, .vault (.createVault ⟨1⟩ ⟨2⟩ 3456000 none))]).any (fun w =>
      (w.state.vault 1).any fun v => decide (v.status = .locked ∧ w.state.decayRate = 10000 ∧
        v.ttl (signedBy [] 19872000).timestamp = 864000 ∧
          v.decayedTtl (signedBy [] 19872000).timestamp 10000 = 0 ∧
            v.DecaysAt (signedBy [] 19872000).timestamp 10000)) = true := by
    decide +kernel
  obtain ⟨w, hw, hplay⟩ := (Option.any_eq_true _ _).mp hplay
  simp only [Option.any_eq_true, decide_eq_true_eq] at hplay
  obtain ⟨v, hv, hlocked, hrate, httl, hnothing, hdecays⟩ := hplay
  have hcharged := decay_charged_once_iff (e := signedBy [] 19872000) hv hlocked
    (by rw [hrate]; decide)
  rw [hrate] at hcharged
  obtain ⟨honce, hfirst⟩ := hcharged.mpr (fun _ => .inr ⟨hdecays, .inl hnothing⟩)
    [signedBy [] 19872000] (by simp)
  refine ⟨w.state, signedBy [] 19872000, v, hv, hlocked, hrate, httl, ?_⟩
  exact honce.trans ((hfirst hdecays.1).trans hnothing)

/-- At 1% a month, 69 days before the deadline. -/
theorem second_decay_at_once : ¬ ∀ (w : World) (id : Nat) (v : Vault) (e : Env) (es : List Env),
    Reachable w → w.state.vault id = some v → v.status = .locked → w.state.decayRate ≠ 0 →
    v.lastCheckIn + thirtyDays ≤ e.timestamp → (∀ e' ∈ es, e'.timestamp = e.timestamp) →
    ((e :: es).foldl (attemptDecay id) w.state).remaining id e.timestamp =
      (attemptDecay id w.state e).remaining id e.timestamp := by
  have hplay : (play (initialised ⟨8⟩ ⟨9⟩)
      [(signedBy [⟨9⟩] 0, .admin (.setTtlDecayRate 100)),
        (signedBy [⟨1⟩] 17280000, .vault (.createVault ⟨1⟩ ⟨2⟩ 8640000 none))]).any (fun w =>
      (w.state.vault 1).any fun v => decide (v.status = .locked ∧ w.state.decayRate = 100 ∧
        v.lastCheckIn + thirtyDays ≤ (signedBy [] 19958400).timestamp ∧
        (attemptDecay 1 (attemptDecay 1 w.state (signedBy [] 19958400))
          (signedBy [] 19958400)).remaining 1 (signedBy [] 19958400).timestamp = 5842964 ∧
        (attemptDecay 1 w.state (signedBy [] 19958400)).remaining 1
          (signedBy [] 19958400).timestamp = 5901984)) = true := by
    decide +kernel
  obtain ⟨w, hw, hplay⟩ := (Option.any_eq_true _ _).mp hplay
  simp only [Option.any_eq_true, decide_eq_true_eq] at hplay
  obtain ⟨v, hv, hlocked, hrate, hsilent, htwice, honce⟩ := hplay
  intro h
  have hsame := h w 1 v (signedBy [] 19958400) [signedBy [] 19958400] (reachable_of_play hw) hv
    hlocked (by rw [hrate]; decide) hsilent (by simp)
  have heq : (5842964 : Nat) = 5901984 := htwice.symm.trans (hsame.trans honce)
  exact absurd heq (by decide)

end Heirloom
