import Heirloom.System

/-!
# Forfeitures

A decline may forfeit what the first schedule of a vault has not paid out. The forfeited amount
is not compared with the balance, the schedule stays as it is, and the owner may set the
forfeiture anew.

* `forfeits_once`: as long as the balance covers what a decline forfeits, the forfeiture is not
  set again after one, and claims are made after one only from an empty vault, the balance
  stays at zero or more in every decline, there is one forfeiture, and no claim pays after it.
* `forfeited_installment_claimed`: an installment that is claimed after it has been forfeited.
-/

namespace Heirloom

open Transaction Runs

/-! ## Declines -/

/-- What a decline would take from vault `id`. -/
def State.forfeitable (s : State) (id : Nat) : Int :=
  match s.get (.vestingForfeiture id), s.get (.vestingSchedule id 0) with
  | some (config : VestingForfeitureConfig), some (schedule : VestingSchedule) =>
      if config.forfeited = false then max 0 schedule.unvested else 0
  | _, _ => 0

/-- The contract, with the number of forfeitures of a vault, and whether the owner has set the
forfeiture again after one. -/
structure ForfeitureBooks where
  world : World
  forfeitures : Nat
  renewed : Bool

/-- A beneficiary of vault `id` declines. -/
def Event.declines (id : Nat) : Event → Bool
  | .call _ (.heir (.declineBeneficiaryRole i _)) => i = id
  | _ => false

/-- The owner of vault `id` sets its forfeiture. -/
def Event.setsForfeiture (id : Nat) : Event → Bool
  | .call _ (.vesting (.setVestingForfeiture i _ _)) => i = id
  | _ => false

/-- Installments of vault `id` are claimed. -/
def Event.claimsVested (id : Nat) : Event → Bool
  | .call _ (.vesting (.claimVestedInstallment i)) => i = id
  | _ => false

/-- The books after an event. -/
def ForfeitureBooks.next (id : Nat) (b : ForfeitureBooks) (w : World) (k : Event) :
    ForfeitureBooks where
  world := w
  forfeitures := if k.declines id = true ∧ 0 < b.world.state.forfeitable id then
    b.forfeitures + 1 else b.forfeitures
  renewed := b.renewed || (k.setsForfeiture id && decide (0 < b.forfeitures))

def ForfeitureStep (id : Nat) (b : ForfeitureBooks) (k : Event) (b' : ForfeitureBooks) : Prop :=
  Step b.world k b'.world ∧ b' = b.next id b'.world k

/-- The condition on the declines and claims of vault `id`. A decline finds a balance that covers
what is forfeitable and, if anything is, no forfeiture set anew after one that was done. A claim
after a forfeiture finds nothing left in the vault. -/
def Forfeitable (id : Nat) (b : ForfeitureBooks) (k : Event) : Prop :=
  ∀ v ∈ b.world.state.vault id,
    (k.declines id = true → b.world.state.forfeitable id ≤ v.balance ∧
      (0 < b.world.state.forfeitable id → b.renewed = false)) ∧
    (k.claimsVested id = true → 0 < b.forfeitures → v.balance ≤ 0)

instance (id : Nat) (b : ForfeitureBooks) (k : Event) : Decidable (Forfeitable id b k) :=
  inferInstanceAs (Decidable (∀ _ ∈ _, _))

section Declines

variable {e : Env} {s t : State} {id : Nat} {v : Vault}

theorem State.Forfeits.forfeitable {recipient : Address} {amount : Int}
    (h : s.Forfeits id recipient amount) : s.forfeitable id = amount := by
  obtain ⟨config, schedule, hconfig, hschedule, hfresh, -, rfl, hpos⟩ := h
  simp [State.forfeitable, hconfig, hschedule, hfresh, max_eq_right hpos.le]

theorem forfeitable_eq_zero (h : ∀ a x, ¬ s.Forfeits id a x) : s.forfeitable id = 0 := by
  unfold State.forfeitable
  split
  · next config schedule hconfig hschedule =>
      split
      · next hfresh =>
          refine max_eq_left (not_lt.mp fun hpos => ?_)
          exact h _ _ ⟨config, schedule, hconfig, hschedule, hfresh, rfl, rfl, hpos⟩
      · rfl
  · rfl

/-- A decline takes what is forfeitable out of the balance, and leaves the forfeiture marked as done
if there was anything. -/
structure Declined (id : Nat) (v : Vault) (s t : State) : Prop where
  vault : s.vault id = some v
  after : ∃ v', t.vault id = some v' ∧ v'.balance = v.balance - s.forfeitable id
  config : if 0 < s.forfeitable id then
      ∃ config, t.get (.vestingForfeiture id) = some config ∧ config.forfeited = true
    else t.get (.vestingForfeiture id) = s.get (.vestingForfeiture id)

theorem declineBeneficiaryRole_declined {caller : Address} :
    wp (declineBeneficiaryRole id caller) (fun _ t => ∃ v, Declined id v s t) e s := by
  refine declineBeneficiaryRole_rule fun v t hv hframe ht => ?_
  have hconfig : t.get (.vestingForfeiture id) = s.get (.vestingForfeiture id) :=
    hframe.get_of_area (by simp)
  have hschedule : t.get (.vestingSchedule id 0) = s.get (.vestingSchedule id 0) :=
    hframe.get_of_area (by simp)
  have hsame : t.forfeitable id = s.forfeitable id := by
    unfold State.forfeitable
    rw [hconfig, hschedule]
  refine wp_forfeitUnvested (fun hnone => ?_) fun recipient amount config hforfeits hdone => ?_
  · have hzero : s.forfeitable id = 0 := hsame ▸ forfeitable_eq_zero hnone
    refine ⟨v, hv, ⟨v, (ht id).trans hv, by simp [hzero]⟩, ?_⟩
    rw [if_neg (by simp [hzero])]
    exact hconfig
  · have hamount : s.forfeitable id = amount := hsame ▸ hforfeits.forfeitable
    have hpos : 0 < amount := by
      obtain ⟨_, _, -, -, -, -, -, hpos⟩ := hforfeits
      exact hpos
    refine ⟨v, hv, ⟨v.withBalance (v.balance - amount), by simp, by simp [hamount]⟩, ?_⟩
    rw [if_pos (hamount ▸ hpos)]
    exact ⟨config, by simp, hdone⟩

end Declines

/-! ## Runs -/

section Books

variable {e : Env} {s t : State} {c : Call} {id : Nat} {b b' : ForfeitureBooks} {k : Event}
  {ks : List Event} {w w₀ : World}

theorem Call.forfeiture_writer (h : .forfeiture ∈ (c.footprint s).areas) :
    (∃ i a, c = .heir (.declineBeneficiaryRole i a)) ∨
      ∃ i a r, c = .vesting (.setVestingForfeiture i a r) := by
  cases c with
  | heir c => cases c <;> simp [Call.footprint, HeirCall.footprint] at h ⊢
  | vesting c => cases c <;> simp [Call.footprint, VestingCall.footprint] at h ⊢
  | _ => simpa [Call.areas] using Call.mem_areas h

/-- The forfeiture of vault `id` has been carried out: its configuration is marked as done. -/
def State.Forfeited (s : State) (id : Nat) : Prop :=
  ∃ config, s.get (.vestingForfeiture id) = some config ∧ config.forfeited = true

theorem State.Forfeited.forfeitable (h : s.Forfeited id) : s.forfeitable id = 0 := by
  obtain ⟨config, hconfig, hdone⟩ := h
  refine forfeitable_eq_zero ?_
  rintro a x ⟨config', _, hconfig', -, hfresh, -⟩
  obtain rfl := Option.some.inj (hconfig.symm.trans hconfig')
  rw [hdone] at hfresh
  cases hfresh

/-- There has been one forfeiture at most, and it is still marked as done unless the owner has
set it again. -/
structure ForfeitureBooks.Kept (id : Nat) (b : ForfeitureBooks) : Prop where
  numbered : b.world.state.Numbered
  once : b.forfeitures ≤ 1
  done : 0 < b.forfeitures → b.renewed = true ∨ b.world.state.Forfeited id
  renewed : b.renewed = true → 0 < b.forfeitures

theorem Event.declines_iff : k.declines id = true ↔
    ∃ e a, k = .call e (.heir (.declineBeneficiaryRole id a)) := by
  unfold Event.declines
  split
  · next e i a =>
    constructor
    · intro h
      exact ⟨e, a, by rw [of_decide_eq_true h]⟩
    · rintro ⟨_, _, ⟨⟩⟩
      simp
  · next hno =>
    refine ⟨fun h => (by cases h), ?_⟩
    rintro ⟨e, a, rfl⟩
    exact absurd rfl (hno e id a)

/-- A forfeiture that has been carried out and not set again takes nothing. -/
theorem ForfeitureBooks.Kept.none_left (h : b.Kept id) (hpos : 0 < b.forfeitures)
    (hfirst : 0 < b.world.state.forfeitable id → b.renewed = false) :
    ¬ 0 < b.world.state.forfeitable id := by
  intro hlt
  rcases h.done hpos with hrenewed | hdone
  · rw [hfirst hlt] at hrenewed
    cases hrenewed
  · rw [hdone.forfeitable] at hlt
    exact absurd hlt (lt_irrefl 0)

theorem ForfeitureBooks.Kept.decline_iff (h : b.Kept id) (hk : ForfeitureStep id b k b')
    (hdecline : k.declines id = true) :
    ((∃ v', b'.world.state.vault id = some v' ∧ 0 ≤ v'.balance) ∧ b'.forfeitures ≤ 1 ↔
      Forfeitable id b k) := by
  obtain ⟨hstep, hb'⟩ := hk
  have hforfeitures : b'.forfeitures =
      if 0 < b.world.state.forfeitable id then b.forfeitures + 1 else b.forfeitures := by
    rw [hb']
    simp [ForfeitureBooks.next, hdecline]
  obtain ⟨e, a, rfl⟩ := Event.declines_iff.mp hdecline
  obtain ⟨v, hv, ⟨v', hv', hbalance⟩, -⟩ := declineBeneficiaryRole_declined _ _ hstep.exec_eq
  rw [hforfeitures]
  constructor
  · rintro ⟨⟨w', hw', hpos⟩, hone⟩ u hu
    obtain rfl : v = u := Option.some.inj (hv.symm.trans hu)
    obtain rfl : v' = w' := Option.some.inj (hv'.symm.trans hw')
    refine ⟨fun _ => ⟨by omega, fun hlt => ?_⟩, fun hclaim => by cases hclaim⟩
    rw [if_pos hlt] at hone
    cases hrenewed : b.renewed with
    | false => rfl
    | true =>
        have := h.renewed hrenewed
        omega
  · intro hsafe
    obtain ⟨hle, hfirst⟩ := (hsafe v hv).1 hdecline
    refine ⟨⟨v', hv', by omega⟩, ?_⟩
    split
    · next hlt =>
      rcases Nat.eq_zero_or_pos b.forfeitures with hzero | hpos
      · rw [hzero]
      · exact absurd hlt (h.none_left hpos hfirst)
    · exact h.once

/-- A decline marks the forfeiture as done, or takes nothing. -/
theorem ForfeitureBooks.Kept.step_decline (h : b.Kept id) (hk : ForfeitureStep id b k b')
    (hdecline : k.declines id = true) (hsafe : Forfeitable id b k) : b'.Kept id := by
  have hone := ((h.decline_iff hk hdecline).mpr hsafe).2
  obtain ⟨hstep, hb'⟩ := hk
  obtain ⟨e, a, rfl⟩ := Event.declines_iff.mp hdecline
  obtain ⟨v, hv, -, hconfig⟩ := declineBeneficiaryRole_declined _ _ hstep.exec_eq
  have hrenewed : b'.renewed = b.renewed := by
    rw [hb']
    simp [ForfeitureBooks.next, Event.setsForfeiture]
  by_cases hlt : 0 < b.world.state.forfeitable id
  · rw [if_pos hlt] at hconfig
    refine ⟨hstep.numbered h.numbered, hone, fun _ => .inr hconfig, fun _ => ?_⟩
    rw [hb']
    simp [ForfeitureBooks.next, hdecline, hlt]
  · rw [if_neg hlt] at hconfig
    have hforfeitures : b'.forfeitures = b.forfeitures := by
      rw [hb']
      simp [ForfeitureBooks.next, hlt]
    refine ⟨hstep.numbered h.numbered, hone, fun hpos => ?_, fun hset => ?_⟩
    · rw [hrenewed]
      refine (h.done (hforfeitures ▸ hpos)).imp_right ?_
      rintro ⟨config, hget, hforfeited⟩
      exact ⟨config, hconfig.trans hget, hforfeited⟩
    · rw [hforfeitures]
      exact h.renewed (hrenewed ▸ hset)

/-- Any other event sets the forfeiture anew, or leaves it alone. -/
theorem forfeiture_kept (hnum : w.state.Numbered) (hstep : Step w k w₀)
    (hdecline : ¬ k.declines id = true) (hset : ¬ k.setsForfeiture id = true) :
    w₀.state.get (.vestingForfeiture id) = w.state.get (.vestingForfeiture id) := by
  cases k with
  | tokens =>
      cases hstep
      rfl
  | call e c =>
      have hframe := exec_frame c hnum _ _ hstep.exec_eq
      by_cases harea : .forfeiture ∈ (c.footprint w.state).areas
      · rcases Call.forfeiture_writer harea with ⟨i, a, rfl⟩ | ⟨i, a, r, rfl⟩
        · refine hframe.get_of_vault rfl ?_
          have hi : i ≠ id := fun hi => hdecline (by simp [Event.declines, hi])
          simpa [Call.footprint, HeirCall.footprint] using hi.symm
        · refine hframe.get_of_vault rfl ?_
          have hi : i ≠ id := fun hi => hset (by simp [Event.setsForfeiture, hi])
          simpa [Call.footprint, VestingCall.footprint] using hi.symm
      · exact hframe.get_of_area (by simpa using harea)

theorem ForfeitureBooks.Kept.step (h : b.Kept id) (hk : ForfeitureStep id b k b')
    (hsafe : Forfeitable id b k) : b'.Kept id := by
  by_cases hdecline : k.declines id = true
  · exact h.step_decline hk hdecline hsafe
  obtain ⟨hstep, hb'⟩ := hk
  have hforfeitures : b'.forfeitures = b.forfeitures := by
    rw [hb']
    simp [ForfeitureBooks.next, hdecline]
  have hnum := hstep.numbered h.numbered
  by_cases hset : k.setsForfeiture id = true
  · have hrenewed : b'.renewed = true ↔ b.renewed = true ∨ 0 < b.forfeitures := by
      rw [hb']
      simp [ForfeitureBooks.next, hset]
    refine ⟨hnum, hforfeitures ▸ h.once, fun hpos => .inl (hrenewed.mpr (.inr ?_)), fun hr => ?_⟩
    · rwa [hforfeitures] at hpos
    · rw [hforfeitures]
      exact (hrenewed.mp hr).elim h.renewed fun hpos => hpos
  · have hrenewed : b'.renewed = b.renewed := by
      rw [hb']
      simp [ForfeitureBooks.next, hset]
    refine ⟨hnum, hforfeitures ▸ h.once, fun hpos => ?_, fun hr => ?_⟩
    · rw [hrenewed]
      refine (h.done (hforfeitures ▸ hpos)).imp_right ?_
      rintro ⟨config, hget, hforfeited⟩
      exact ⟨config, (forfeiture_kept h.numbered hstep hdecline hset).trans hget, hforfeited⟩
    · rw [hforfeitures]
      exact h.renewed (hrenewed ▸ hr)

theorem Genesis.kept (h₀ : Genesis w₀) : ForfeitureBooks.Kept id ⟨w₀, 0, false⟩ :=
  ⟨h₀.numbered, Nat.zero_le _, fun h => absurd h (Nat.lt_irrefl _), fun h => by cases h⟩

theorem claimVestedInstallment_pays (h : exec (.vesting (.claimVestedInstallment id)) e s =
    .ok ((), t)) : ∃ v amount, ClaimsInstallments id v amount s t := by
  have hclaim : wp (exec (.vesting (.claimVestedInstallment id)))
      (fun _ t => ∃ v amount, ClaimsInstallments id v amount s t) e s := by
    simp only [exec, execVesting, Tx.wp_bind, Tx.wp_pure]
    refine Tx.wp_mono claimVestedInstallment_spec ?_
    rintro amount t ⟨v, h⟩
    exact ⟨v, amount, h⟩
  exact hclaim _ _ h

/-- A decline leaves a balance and forfeits for the first time at most exactly if its
condition holds, and after a forfeiture no claim pays anything. -/
theorem forfeits_once (h₀ : Genesis w₀)
    (hrun : Run (Guarded (ForfeitureStep id) (Forfeitable id)) ⟨w₀, 0, false⟩ ks b) :
    b.forfeitures ≤ 1 ∧
    (∀ k b', ForfeitureStep id b k b' → k.declines id = true →
      ((∃ v', b'.world.state.vault id = some v' ∧ 0 ≤ v'.balance) ∧ b'.forfeitures ≤ 1 ↔
        Forfeitable id b k)) ∧
    ∀ e b', ForfeitureStep id b (.call e (.vesting (.claimVestedInstallment id))) b' →
      Forfeitable id b (.call e (.vesting (.claimVestedInstallment id))) → 0 < b.forfeitures →
      ∃ v amount, b.world.state.vault id = some v ∧
        b'.world.state.vault id = some (v.withBalance (v.balance - amount)) ∧ amount ≤ 0 := by
  have hkept : b.Kept id := hrun.invariant h₀.kept fun _ _ _ h hk => h.step hk.1 hk.2
  refine ⟨hkept.once, fun k b' hk hdecline => hkept.decline_iff hk hdecline,
    fun e b' hk hsafe hpos => ?_⟩
  obtain ⟨v, amount, hclaims⟩ := claimVestedInstallment_pays hk.1.exec_eq
  have hv := hclaims.transacts.before
  have hempty : v.balance ≤ 0 := (hsafe v hv).2 (by simp [Event.claimsVested]) hpos
  refine ⟨v, amount, hv, ?_, hclaims.covered.trans hempty⟩
  simpa using hclaims.transacts.after id

end Books

/-! ## Two runs -/

/-- A call, with its event and the books after it. -/
def ForfeitureBooks.turn (id : Nat) (b : ForfeitureBooks) (turn : Env × Call) :
    Option (Event × ForfeitureBooks) :=
  (play b.world [turn]).map fun w =>
    (.call turn.1 turn.2, b.next id w (.call turn.1 turn.2))

theorem ForfeitureBooks.step_of_turn {id : Nat} (b : ForfeitureBooks) (turn : Env × Call)
    (k : Event) (b' : ForfeitureBooks) (h : b.turn id turn = some (k, b')) :
    ForfeitureStep id b k b' := by
  obtain ⟨w, hw, heq⟩ := Option.map_eq_some_iff.mp h
  cases heq
  exact ⟨step_of_play hw, rfl⟩

/-- A vault with a schedule about 400 in two installments, whose heir declines. -/
def decliningCalls (deposit : Int) : List (Env × Call) :=
  [(signedBy [⟨1⟩] 0, .vault (.createVault ⟨1⟩ ⟨2⟩ 1000 none)),
    (signedBy [⟨1⟩] 0, .vault (.deposit 1 ⟨1⟩ deposit)),
    (signedBy [⟨1⟩] 0, .vesting (.setVestingSchedule 1 ⟨1⟩ 0 5000 2 400 0)),
    (signedBy [⟨1⟩] 0, .vesting (.setVestingForfeiture 1 ⟨1⟩ ⟨3⟩)),
    (signedBy [] 2000, .release (.triggerRelease 1)),
    (signedBy [⟨2⟩] 2000, .heir (.declineBeneficiaryRole 1 ⟨2⟩))]

/-- The vault has 400, and a claim after the decline pays nothing. -/
theorem forfeits_once_empty : ∃ ks b b' v amount,
    Run (Guarded (ForfeitureStep 1) (Forfeitable 1)) ⟨initialised ⟨8⟩ ⟨9⟩, 0, false⟩ ks b ∧
    b.forfeitures = 1 ∧
    ForfeitureStep 1 b (.call (signedBy [] 5000) (.vesting (.claimVestedInstallment 1))) b' ∧
    b.world.state.vault 1 = some v ∧
    b'.world.state.vault 1 = some (v.withBalance (v.balance - amount)) ∧ amount ≤ 0 := by
  have hplay : (Runs.play (ForfeitureBooks.turn 1) (fun b k => decide (Forfeitable 1 b k))
      ⟨initialised ⟨8⟩ ⟨9⟩, 0, false⟩ (decliningCalls 400)).any (fun r =>
        (play r.2.world [(signedBy [] 5000, .vesting (.claimVestedInstallment 1))]).any fun _ =>
          (r.2.world.state.vault 1).any fun v => decide (r.2.forfeitures = 1 ∧ v.balance = 0)) =
      true := by
    decide +kernel
  obtain ⟨⟨ks, b⟩, hr, hplay⟩ := (Option.any_eq_true _ _).mp hplay
  obtain ⟨w, hw, hplay⟩ := (Option.any_eq_true _ _).mp hplay
  obtain ⟨v, hv, hchecks⟩ := (Option.any_eq_true _ _).mp hplay
  obtain ⟨hone, hempty⟩ := of_decide_eq_true hchecks
  have hrun : Run (Guarded (ForfeitureStep 1) (Forfeitable 1))
      ⟨initialised ⟨8⟩ ⟨9⟩, 0, false⟩ ks b :=
    (Runs.run_of_play ForfeitureBooks.step_of_turn hr).mono fun _ _ _ hk =>
      ⟨hk.1, of_decide_eq_true hk.2⟩
  have hclaim : ForfeitureStep 1 b (.call (signedBy [] 5000) (.vesting (.claimVestedInstallment 1)))
      (b.next 1 w (.call (signedBy [] 5000) (.vesting (.claimVestedInstallment 1)))) :=
    ⟨step_of_play hw, rfl⟩
  obtain ⟨u, amount, hu, hafter, hle⟩ :=
    (forfeits_once (genesis_initialised (by decide) (by decide)) hrun).2.2 _ _ hclaim
      (fun u hu => by
        obtain rfl : v = u := Option.some.inj (hv.symm.trans hu)
        exact ⟨fun hdecline => (by cases hdecline), fun _ _ => hempty.le⟩) (by rw [hone]; decide)
  exact ⟨ks, b, _, u, amount, hrun, hone, hclaim, hu, hafter, hle⟩

/-- The vault has 800, and a claim pays an installment that was forfeited. -/
theorem forfeited_installment_claimed : ∃ ks b b' v v',
    Run (ForfeitureStep 1) ⟨initialised ⟨8⟩ ⟨9⟩, 0, false⟩ ks b ∧ b.forfeitures = 1 ∧
    ForfeitureStep 1 b (.call (signedBy [] 3000) (.vesting (.claimVestedInstallment 1))) b' ∧
    b.world.state.vault 1 = some v ∧ b'.world.state.vault 1 = some v' ∧
    v.balance = 400 ∧ v'.balance = 200 := by
  have hplay : (Runs.play (ForfeitureBooks.turn 1) (fun _ _ => true)
      ⟨initialised ⟨8⟩ ⟨9⟩, 0, false⟩ (decliningCalls 800)).any (fun r =>
        (play r.2.world [(signedBy [] 3000, .vesting (.claimVestedInstallment 1))]).any fun w =>
          (r.2.world.state.vault 1).any fun v => (w.state.vault 1).any fun v' =>
            decide (r.2.forfeitures = 1 ∧ v.balance = 400 ∧ v'.balance = 200)) =
      true := by
    decide +kernel
  obtain ⟨⟨ks, b⟩, hr, hplay⟩ := (Option.any_eq_true _ _).mp hplay
  obtain ⟨w, hw, hplay⟩ := (Option.any_eq_true _ _).mp hplay
  obtain ⟨v, hv, hplay⟩ := (Option.any_eq_true _ _).mp hplay
  obtain ⟨v', hv', hchecks⟩ := (Option.any_eq_true _ _).mp hplay
  obtain ⟨hone, hbalance, hbalance'⟩ := of_decide_eq_true hchecks
  exact ⟨ks, b, b.next 1 w _, v, v', (Runs.run_of_play ForfeitureBooks.step_of_turn hr).unguard,
    hone, ⟨step_of_play hw, rfl⟩, hv, hv', hbalance, hbalance'⟩

end Heirloom
