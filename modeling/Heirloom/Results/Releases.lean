import Heirloom.Results.Splits

/-!
# How often a vault is released

A spending limit below the balance makes a release partial: it pays up to the limit and
leaves the vault locked, so that further calls can pay the rest. The flag that a release
has been attempted is set by the first call, whatever that call pays, and every later one
is refused because of it.

* `release_completes`: a release that goes through pays the vault off, limit by limit,
  exactly when the limit covers the balance and the heir's acceptance has not lapsed. Where
  every release finds it so, no locked vault with a balance is refused as released.
* `second_release_refused`: four out of ten units are paid, the others stay in the vault.
-/

namespace Heirloom

open Transaction Runs

/-! ## Paying a vault off -/

/-- The same call at a later time. Nothing else about it differs. -/
def Env.Later (e e' : Env) : Prop :=
  e.timestamp ≤ e'.timestamp ∧
    e' = { e with timestamp := e'.timestamp, timestamp_le := e'.timestamp_le }

/-- Vault `id` gives `limit`, or the balance if that is less. What is not burned of it is
transferred. -/
def PaysUpTo (id : Nat) (limit : Int) (s t : State) : Prop :=
  ∃ v w log, Transacts id v w log s t ∧ w.balance = v.balance - min limit v.balance ∧
    (v.burnPercentage = 0 → flow log = -min limit v.balance)

/-- Nothing is left in vault `id`, and its status says that it is released. -/
def PaidOff (id : Nat) (s : State) : Prop :=
  ∃ v, s.vault id = some v ∧ v.balance = 0 ∧ v.status = .released

/-- `n` calls of `trigger_release`, the first one in `e` and the others at any later times,
each pay up to the limit, and the vault is paid off after them. -/
def PaysDown (id : Nat) (limit : Int) : Nat → Env → State → Prop
  | 0, _, s => PaidOff id s
  | n + 1, e, s => ∃ t, triggerRelease id e s = .ok ((), t) ∧ PaysUpTo id limit s t ∧
      ∀ e', e.Later e' → PaysDown id limit n e' t

/-- `balance / limit`, rounded up. -/
def rounds (balance limit : Int) : Nat := ((balance + limit - 1) / limit).toNat

section Rounds

variable {balance limit : Int}

/-- One round is enough for a limit that covers the balance. -/
theorem rounds_eq_one (hb : 0 < balance) (h : balance ≤ limit) : rounds balance limit = 1 := by
  have hdiv : (balance + limit - 1) / limit = 1 := by
    rw [Int.ediv_eq_iff_of_pos (by omega)]
    omega
  rw [rounds, hdiv]
  rfl

/-- A smaller limit takes at least two. -/
theorem two_le_rounds (hl : 0 < limit) (h : limit < balance) : 2 ≤ rounds balance limit := by
  have hdiv : 2 ≤ (balance + limit - 1) / limit := by
    rw [Int.le_ediv_iff_mul_le hl]
    omega
  rw [rounds]
  omega

end Rounds

section Release

variable {e e' : Env} {s t u : State} {id : Nat} {v w : Vault} {mode : ReleaseTrigger} {limit : Int}

theorem Env.Later.refl : e.Later e := ⟨le_rfl, rfl⟩

/-- The vault after a release of one that does not vest: cancelled if the acceptance has
lapsed, and otherwise with the rest of the balance and the flag set. -/
theorem triggerReleaseInternal_after (hs : s.Sound) (hv : s.vault id = some v)
    (hvests : ¬ s.vests id (v.rotated e s id))
    (h : triggerReleaseInternal id mode e s = .ok ((), t)) :
    (s.acceptanceLapsed id e.timestamp ∧
        ∃ w, t.vault id = some w ∧ w.status = .cancelled) ∨
      (¬ s.acceptanceLapsed id e.timestamp ∧ t.get (.releaseAttempted id) = some true ∧
        ∃ log, Transacts id v ((v.rotated e s id).released (v.balance - v.releaseAmount)) log s t ∧
          (0 ≤ v.releaseAmount → v.burnPercentage = 0 → flow log = -v.releaseAmount)) := by
  obtain ⟨v₁, w, hstatus⟩ := triggerReleaseInternal_status _ _ h
  obtain ⟨v₂, hv₂, -, -, -, hreleases⟩ := triggerReleaseInternal_spec (hs.rotationSound id) _ _ h
  obtain rfl : v₂ = v := Option.some.inj (hv₂.symm.trans hv)
  by_cases hlapsed : s.acceptanceLapsed id e.timestamp
  · exact .inl ⟨hlapsed, w, hstatus.after, hstatus.cancelled.mpr hlapsed⟩
  · have hnot : ¬ s.Unpaid e id := by
      rintro (hlapse | ⟨v', hv', hvests'⟩)
      · exact hlapsed hlapse
      · obtain rfl : v' = v₂ := Option.some.inj (hv'.symm.trans hv)
        exact hvests hvests'
    cases hreleases with
    | refunded hunpaid => exact absurd hunpaid hnot
    | vested hunpaid => exact absurd hunpaid hnot
    | paid log _ htx hattempted _ hexact => exact .inr ⟨hlapsed, hattempted, log, htx, hexact⟩

/-- A release finds a vault that was not released before. -/
theorem triggerReleaseInternal_first (h : triggerReleaseInternal id mode e s = .ok ((), t)) :
    s.get (.releaseAttempted id) = none ∧ ∃ v, s.vault id = some v ∧ v.status = .locked := by
  obtain ⟨v, w, hstatus⟩ := triggerReleaseInternal_status _ _ h
  refine ⟨?_, v, hstatus.before, hstatus.locked⟩
  simp only [triggerReleaseInternal, Tx.ok_bind] at h
  obtain ⟨_, _, hrequested, -⟩ := h
  exact (assertReleaseRequested_spec _ _ hrequested).2

/-- The vault is paid off, round by round, exactly if one round is enough. -/
theorem paysDown_iff (hs : s.Sound) (hv : s.vault id = some v) (hbalance : 0 < v.balance)
    (hlimit : v.spendingLimit = some limit) (hvests : ¬ s.vests id (v.rotated e s id))
    (h : triggerRelease id e s = .ok ((), t)) :
    PaysDown id limit (rounds v.balance limit) e s ↔
      v.balance ≤ limit ∧ ¬ s.acceptanceLapsed id e.timestamp := by
  have hpos : 0 < limit := (hs.settings id v hv).2 limit hlimit
  have hafter := triggerReleaseInternal_after hs hv hvests h
  have hamount : v.releaseAmount = min v.balance limit := by
    rw [Vault.releaseAmount, hlimit]
  constructor
  · intro hdown
    obtain ⟨n, hn⟩ : ∃ n, rounds v.balance limit = n + 1 := by
      rcases le_or_gt v.balance limit with hle | hlt
      · exact ⟨0, rounds_eq_one hbalance hle⟩
      · have := two_le_rounds hpos hlt
        exact ⟨rounds v.balance limit - 1, by omega⟩
    rw [hn] at hdown
    obtain ⟨t', ht', -, hrest⟩ := hdown
    obtain rfl : t' = t := by simpa [h] using ht'.symm
    cases n with
    | zero =>
        -- one round was enough, and the vault it leaves is released
        obtain ⟨w, hw, -, hreleased⟩ := hrest e .refl
        refine ⟨not_lt.mp fun hlt => ?_, fun hlapsed => ?_⟩
        · have := two_le_rounds hpos hlt
          omega
        · rcases hafter with ⟨-, w', hw', hcancelled⟩ | ⟨hnot, -⟩
          · obtain rfl : w' = w := Option.some.inj (hw'.symm.trans hw)
            simp [hcancelled] at hreleased
          · exact hnot hlapsed
    | succ n =>
        -- the second round finds the flag of the first one, or a cancelled vault
        obtain ⟨u, hsecond, -⟩ := hrest e .refl
        obtain ⟨hunset, w, hw, hlocked⟩ := triggerReleaseInternal_first hsecond
        rcases hafter with ⟨-, w', hw', hcancelled⟩ | ⟨-, hset, -⟩
        · obtain rfl : w' = w := Option.some.inj (hw'.symm.trans hw)
          simp [hcancelled] at hlocked
        · simp [hset] at hunset
  · rintro ⟨hle, hlapsed⟩
    rcases hafter with ⟨hlapse, -⟩ | ⟨-, -, log, htx, hexact⟩
    · exact absurd hlapse hlapsed
    · have hall : v.releaseAmount = v.balance := hamount.trans (min_eq_left hle)
      have hmin : min limit v.balance = v.balance := min_eq_right hle
      rw [hall, sub_self] at htx
      rw [rounds_eq_one hbalance hle]
      refine ⟨t, h, ⟨v, _, log, htx, ?_, fun hburn => ?_⟩, fun _ _ => ?_⟩
      · rw [hmin, sub_self]
        rfl
      · rw [hmin, hexact (hall ▸ hbalance.le) hburn, hall]
      · refine ⟨_, by rw [htx.after id, if_pos rfl], rfl, ?_⟩
        rw [Vault.released]
        rfl

end Release

/-! ## Refused as released -/

section Refusal

variable {e : Env} {s t : State} {id : Nat} {v : Vault} {mode : ReleaseTrigger}

/-! What the other checks of a release fail with. -/

theorem isExpired_not_released : Tx.Avoids (.error .alreadyReleased) (isExpired id) := by
  intro e s
  simp [isExpired, expiredAfter, loadVault]

theorem getReleaseConditions_not_released :
    Tx.Avoids (.error .alreadyReleased) (getReleaseConditions id) := by
  intro e s
  simp [getReleaseConditions, loadVault]

theorem anyConditionMet_not_released {l : List ReleaseCondition} :
    Tx.Avoids (.error .alreadyReleased) (anyConditionMet id mode l) := by
  refine Tx.Avoids.foldEach fun met condition => Tx.Avoids.bind ?_ fun _ _ _ => by simp
  cases condition with
  | ttlExpiry => exact isExpired_not_released
  | ownerInitiated => exact fun _ _ => by simp [conditionMet]
  | oracle => exact fun _ _ => by simp [conditionMet, oracleQuery]

theorem assertGracePeriodOver_not_released :
    Tx.Avoids (.error .alreadyReleased) (assertGracePeriodOver id v) := by
  intro e s
  simp [assertGracePeriodOver, expiryTime]

theorem assertNotVetoed_not_released :
    Tx.Avoids (.error .alreadyReleased) (assertNotVetoed id) := by
  intro e s
  simp [assertNotVetoed, isExpired_not_released _ _]

theorem assertHeirsReady_not_released :
    Tx.Avoids (.error .alreadyReleased) (assertHeirsReady id v) := by
  intro e s
  simp [assertHeirsReady, getBeneficiaryStatus, checkConditionalAcceptanceThreshold,
    assertProofOfLife, assertVotesPassed]

/-- A release of a locked vault whose flag is unset is not refused as released. -/
theorem assertReleaseRequested_not_released (hv : s.vault id = some v)
    (hlocked : v.status = .locked) (hunset : s.get (.releaseAttempted id) = none) :
    assertReleaseRequested id mode e s ≠ .error (.error .alreadyReleased) := by
  intro h
  obtain ⟨t, ht⟩ : ∃ t, tryRestoreArchivedVault id e s = .ok ((), t) := tryRestoreArchivedVault_ok
  have hcleared : Cleared id s t := tryRestoreArchivedVault_spec _ _ ht
  have hvt : t.vault id = some v := (hcleared.vault id).trans hv
  have hflag : t.get (.releaseAttempted id) = none := (hcleared.get _ (by simp)).trans hunset
  unfold assertReleaseRequested at h
  simp [ht, loadVault, hvt, hflag, hlocked, assertNotPaused, loadPaused,
    getReleaseConditions_not_released _ _, anyConditionMet_not_released _ _] at h

theorem assertReleasable_not_released (hv : s.vault id = some v) (hlocked : v.status = .locked) :
    assertReleasable id e s ≠ .error (.error .alreadyReleased) := by
  intro h
  obtain ⟨t, ht⟩ : ∃ t, tryRestoreArchivedVault id e s = .ok ((), t) := tryRestoreArchivedVault_ok
  have hcleared : Cleared id s t := tryRestoreArchivedVault_spec _ _ ht
  have hvt : t.vault id = some v := (hcleared.vault id).trans hv
  unfold assertReleasable at h
  simp [ht, loadVault, hvt, hlocked, assertNotPaused, loadPaused, isExpired_not_released _ _,
    assertGracePeriodOver_not_released _ _, assertNotVetoed_not_released _ _,
    assertHeirsReady_not_released _ _] at h

theorem triggerReleaseInternal_not_released (hv : s.vault id = some v)
    (hlocked : v.status = .locked) (hunset : s.get (.releaseAttempted id) = none) :
    triggerReleaseInternal id mode e s ≠ .error (.error .alreadyReleased) := by
  intro h
  have hne : Failure.error .alreadyReleased ≠ .trap := by simp
  simp only [triggerReleaseInternal, Tx.err_bind] at h
  rcases h with h | ⟨_, t, hrequested, h | ⟨w, u, hreleasable, h⟩⟩
  · exact assertReleaseRequested_not_released hv hlocked hunset h
  · have hcleared : Cleared id s t := (assertReleaseRequested_spec _ _ hrequested).1
    exact assertReleasable_not_released ((hcleared.vault id).trans hv) hlocked h
  · simp [avoids_refundOwner hne _ _, avoids_releaseToHeirs hne _ _] at h

end Refusal

/-! ## The flag along a run -/

/-- A vault that a release has been attempted for is no longer locked, so that no second one gets
past the status. -/
def State.FlagSound (s : State) : Prop :=
  ∀ id, s.get (.releaseAttempted id) ≠ none → ∃ v, s.vault id = some v ∧ v.status ≠ .locked

/-- A release that pays the heirs at once finds a limit that covers the balance. -/
def ReleasesAll (s : State) (e : Env) : Call → Prop
  | .release (.triggerRelease id)
  | .release (.triggerReleaseManual id)
  | .release (.panicRelease id _) =>
      s.Unpaid e id ∨ ∀ v l, s.vault id = some v → v.spendingLimit = some l → v.balance ≤ l
  | _ => True

section Flag

variable {e : Env} {s t : State} {c : Call} {id : Nat} {v w : Vault} {log : Log}

/-- The calls that write the flag or the address of a revealed heir. -/
theorem Call.release_writer (h : .release ∈ (c.footprint s).areas) :
    (∃ o id, c = .release o ∧ o.footprint = releaseFootprint id) ∨
      ∃ id p a, c = .release (.revealBeneficiary id p a) := by
  cases c with
  | release c =>
      cases c <;> simp [Call.footprint, ReleaseCall.footprint, releaseFootprint] at h ⊢
  | _ => simpa [Call.areas] using Call.mem_areas h

theorem ReleasesAll.covers {o : ReleaseCall} (h : ReleasesAll s e (.release o))
    (ho : o.footprint = releaseFootprint id) :
    s.Unpaid e id ∨ ∀ v l, s.vault id = some v → v.spendingLimit = some l → v.balance ≤ l := by
  cases o with
  | triggerRelease i | triggerReleaseManual i | panicRelease i =>
      obtain rfl : i = id := by simpa [ReleaseCall.footprint, releaseFootprint] using ho
      exact h
  | partialRelease | revealBeneficiary => simp [ReleaseCall.footprint, releaseFootprint] at ho

/-- No call locks a vault again. -/
theorem flag_of_frame {f : Footprint} (hs : s.FlagSound) (hframe : Frame f s t)
    (hsame : t.get (.releaseAttempted id) = s.get (.releaseAttempted id))
    (h : t.get (.releaseAttempted id) ≠ none) : ∃ v, t.vault id = some v ∧ v.status ≠ .locked := by
  obtain ⟨v, hv, hunlocked⟩ := hs id (hsame ▸ h)
  obtain ⟨w, hw, hagree⟩ := hframe.kept id v hv
  refine ⟨w, hw, ?_⟩
  rcases hagree.status with hstatus | ⟨-, hstatus⟩
  · exact hstatus ▸ hunlocked
  · exact hstatus

/-- A release of the whole balance leaves no locked vault behind. -/
theorem triggerReleaseInternal_unlocks {mode : ReleaseTrigger} (hs : s.Sound)
    (hall : s.Unpaid e id ∨ ∀ v l, s.vault id = some v → v.spendingLimit = some l → v.balance ≤ l)
    (h : triggerReleaseInternal id mode e s = .ok ((), t)) :
    ∃ w, t.vault id = some w ∧ w.status ≠ .locked := by
  obtain ⟨v, hv, -, -, -, hreleases⟩ := triggerReleaseInternal_spec (hs.rotationSound id) _ _ h
  cases hreleases with
  | refunded _ _ htx => exact ⟨_, by rw [htx.after id, if_pos rfl], by simp⟩
  | vested _ htx => exact ⟨_, by rw [htx.after id, if_pos rfl], by simp⟩
  | paid log hnot htx =>
      have hcovers := hall.resolve_left hnot v
      have hamount : v.releaseAmount = v.balance := by
        unfold Vault.releaseAmount
        split
        · next l hl => exact min_eq_left (hcovers l hv hl)
        · rfl
      rw [hamount, sub_self] at htx
      exact ⟨_, by rw [htx.after id, if_pos rfl], by simp [Vault.released]⟩

/-- The flag under one call. -/
theorem exec_flagSound (hnum : s.Numbered) (hs : s.Sound) (hflag : s.FlagSound)
    (hall : ReleasesAll s e c) : wp (exec c) (fun _ t => t.FlagSound) e s := by
  intro _ t hexec id hset
  have hframe : Frame (c.footprint s) s t := exec_frame c hnum _ _ hexec
  by_cases harea : .release ∈ (c.footprint s).areas
  swap
  · exact flag_of_frame hflag hframe (hframe.get_of_area (by simpa using harea)) hset
  rcases Call.release_writer harea with ⟨o, i, rfl, ho⟩ | ⟨i, p, a, rfl⟩
  · by_cases hi : id = i
    · subst hi
      obtain ⟨mode, hrun⟩ := execRelease_internal ho hexec
      exact triggerReleaseInternal_unlocks hs (hall.covers ho) hrun
    · have hid : id ∉ ((Call.release o).footprint s).vaults := by
        rw [show (Call.release o).footprint s = releaseFootprint i from ho]
        simpa [releaseFootprint] using hi
      exact flag_of_frame hflag hframe (hframe.get_of_vault rfl hid) hset
  · -- a reveal sets another key
    have hsame : wp (revealBeneficiary i p a)
        (fun _ t => t.get (.releaseAttempted id) = s.get (.releaseAttempted id)) e s := by
      simp [revealBeneficiary]
    exact flag_of_frame hflag hframe (hsame _ _ hexec) hset

theorem flagSound_of_run {w₀ w : World} {ks : List Event} (h₀ : Genesis w₀)
    (hrun : Run (Guarded Step (OnCalls ReleasesAll)) w₀ ks w) : w.state.FlagSound := by
  have hboth : w.state.Sound ∧ w.state.FlagSound := by
    refine invariant_of_calls (I := fun s => s.Sound ∧ s.FlagSound) h₀ hrun
      ⟨h₀.sound, fun id h => ?_⟩ (fun hnum hs hall _ t hexec => ?_) fun _ hs => ?_
    · exact absurd (h₀.get (by simp)) h
    · exact ⟨exec_sound hnum hs.1 _ _ hexec, exec_flagSound hnum hs.1 hs.2 hall _ _ hexec⟩
    · exact ⟨⟨hs.1.heirs, hs.1.rotations, hs.1.settings⟩, hs.2⟩
  exact hboth.2

end Flag

/-! ## Releases -/

instance (s : State) (id : Nat) (v : Vault) : Decidable (s.vests id v) :=
  inferInstanceAs (Decidable (_ ∨ _ ∨ ∃ _ ∈ _, _))

instance (s : State) (id now : Nat) : Decidable (s.acceptanceLapsed id now) :=
  inferInstanceAs (Decidable (_ = true))

section Completion

variable {w : World} {id : Nat} {v : Vault}

/-- For every locked vault with a balance: a release that goes through, of a vault that
does not vest, pays the balance off by calls that each pay up to the limit, as many as the
limit goes into the balance, exactly if the limit covers the balance and the acceptance of
the heir has not lapsed. And the vault is not refused as released if all releases so far
found their limits that large. -/
theorem release_completes (hw : Reachable w) (hv : w.state.vault id = some v)
    (hlocked : v.status = .locked) (hbalance : 0 < v.balance) :
    (∀ (e : Env) (limit : Int) (t : State), v.spendingLimit = some limit →
      ¬ w.state.vests id (v.rotated e w.state id) → triggerRelease id e w.state = .ok ((), t) →
        (PaysDown id limit (rounds v.balance limit) e w.state ↔
          v.balance ≤ limit ∧ ¬ w.state.acceptanceLapsed id e.timestamp)) ∧
    ∀ (w₀ : World) (ks : List Event), Genesis w₀ →
      Run (Guarded Step (OnCalls ReleasesAll)) w₀ ks w →
        ∀ e, triggerRelease id e w.state ≠ .error (.error .alreadyReleased) := by
  refine ⟨fun e limit t hlimit hvests h => ?_, fun w₀ ks h₀ hrun e => ?_⟩
  · exact paysDown_iff hw.sound hv hbalance hlimit hvests h
  · have hunset : w.state.get (.releaseAttempted id) = none := by
      by_contra hset
      obtain ⟨v', hv', hunlocked⟩ := flagSound_of_run h₀ hrun id hset
      obtain rfl : v' = v := Option.some.inj (hv'.symm.trans hv)
      exact hunlocked hlocked
    exact triggerReleaseInternal_not_released hv hlocked hunset

/-- Ten units under a limit of twelve. -/
theorem release_completes_covered : ∃ w : World, Reachable w ∧
    PaysDown 1 12 1 (signedBy [⟨7⟩] 90000) w.state ∧
      ∀ e, triggerRelease 1 e w.state ≠ .error (.error .alreadyReleased) := by
  have hplay : (play (initialised ⟨8⟩ ⟨9⟩)
      [opensVault 100, paysIn 10,
        (signedBy [⟨1⟩] 0, .vault (.setSpendingLimit 1 (some 12)))]).any
      (fun w => (w.state.vault 1).any (fun v =>
          v.status = .locked ∧ v.balance = 10 ∧ v.spendingLimit = some 12 ∧
            ¬ w.state.vests 1 (v.rotated (signedBy [⟨7⟩] 90000) w.state 1)) ∧
        ¬ w.state.acceptanceLapsed 1 (signedBy [⟨7⟩] 90000).timestamp ∧
        succeeded (triggerRelease 1 (signedBy [⟨7⟩] 90000) w.state)) = true := by decide +kernel
  obtain ⟨w, hw, hchecks⟩ := (Option.any_eq_true _ _).mp hplay
  simp only [decide_eq_true_eq] at hchecks
  obtain ⟨hv, hlapsed, hok⟩ := hchecks
  obtain ⟨v, hv, hchecks⟩ := (Option.any_eq_true _ _).mp hv
  simp only [decide_eq_true_eq] at hchecks
  obtain ⟨hlocked, hbalance, hlimit, hvests⟩ := hchecks
  obtain ⟨_, t, ht⟩ := ok_of_succeeded hok
  have hreach : Reachable w := reachable_of_play hw
  obtain ⟨hpays, hrefused⟩ := release_completes hreach hv hlocked (by rw [hbalance]; decide)
  have hdown := (hpays _ 12 t hlimit hvests ht).mpr ⟨by rw [hbalance]; decide, hlapsed⟩
  have hone : rounds v.balance 12 = 1 := by rw [hbalance]; decide
  refine ⟨w, hreach, hone ▸ hdown, ?_⟩
  exact hrefused _ _ (genesis_initialised (by decide) (by decide))
    (guarded_of_play (by simp [ReleasesAll]) hw)

/-- Under a limit of four, the second of three calls is refused: neither does the release
complete, nor is a locked vault with a balance always released. -/
theorem second_release_refused :
    (¬ ∀ (w : World) (id : Nat) (v : Vault) (e : Env) (limit : Int) (t : State), Reachable w →
      w.state.vault id = some v → v.status = .locked → 0 < v.balance →
      v.spendingLimit = some limit → ¬ w.state.vests id (v.rotated e w.state id) →
      triggerRelease id e w.state = .ok ((), t) →
        PaysDown id limit (rounds v.balance limit) e w.state) ∧
    ¬ ∀ (w : World) (id : Nat) (v : Vault) (e : Env), Reachable w → w.state.vault id = some v →
      v.status = .locked → 0 < v.balance →
        triggerRelease id e w.state ≠ .error (.error .alreadyReleased) := by
  have hplay : (play (initialised ⟨8⟩ ⟨9⟩)
      [opensVault 100, paysIn 10,
        (signedBy [⟨1⟩] 0, .vault (.setSpendingLimit 1 (some 4)))]).any
      (fun w => (w.state.vault 1).any (fun v =>
          v.status = .locked ∧ v.balance = 10 ∧ v.spendingLimit = some 4 ∧
            ¬ w.state.vests 1 (v.rotated (signedBy [⟨7⟩] 90000) w.state 1)) ∧
        (play w [(signedBy [⟨7⟩] 90000, .release (.triggerRelease 1))]).any (fun w' =>
          w'.state.get (.releaseAttempted 1) = some true ∧
          failedWith .alreadyReleased
            (triggerRelease 1 (signedBy [⟨7⟩] 90000) w'.state) = true ∧
          (w'.state.vault 1).any fun v => v.status = .locked ∧ v.balance = 6)) = true := by
    decide +kernel
  obtain ⟨w, hw, hchecks⟩ := (Option.any_eq_true _ _).mp hplay
  simp only [decide_eq_true_eq] at hchecks
  obtain ⟨v, hv, hbefore⟩ := (Option.any_eq_true _ _).mp hchecks.1
  simp only [decide_eq_true_eq] at hbefore
  obtain ⟨hlocked, hbalance, hlimit, hvests⟩ := hbefore
  obtain ⟨w', hw', hafter⟩ := (Option.any_eq_true _ _).mp hchecks.2
  simp only [decide_eq_true_eq] at hafter
  obtain ⟨hset, hrefused, hv'⟩ := hafter
  obtain ⟨v', hv', hrest⟩ := (Option.any_eq_true _ _).mp hv'
  simp only [decide_eq_true_eq] at hrest
  have hreach : Reachable w := reachable_of_play hw
  have hstep : Step w (.call (signedBy [⟨7⟩] 90000) (.release (.triggerRelease 1))) w' :=
    step_of_play hw'
  refine ⟨fun h => ?_, fun h => ?_⟩
  · cases hstep with
    | call _ hexec =>
        have hdown := h w 1 v _ 4 _ hreach hv hlocked (by rw [hbalance]; decide) hlimit hvests hexec
        rw [show rounds v.balance 4 = 3 by rw [hbalance]; decide] at hdown
        obtain ⟨t, ht, -, hsecond⟩ := hdown
        obtain rfl : t = _ := by simpa using ht.symm.trans hexec
        obtain ⟨u, hu, -⟩ := hsecond _ .refl
        have hunset := (triggerReleaseInternal_first hu).1
        rw [hset] at hunset
        cases hunset
  · exact h w' 1 v' _ (hreach.step hstep) hv' hrest.1 (by rw [hrest.2]; decide)
      (error_of_failedWith hrefused)

end Completion

end Heirloom
