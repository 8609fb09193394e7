import Heirloom.System

/-!
# Deadlines

The deadline of a vault is computed anew in many functions.

* The five notions of expiry agree at exactly the times given by
  `expiry_agrees_iff`: never at the deadline itself, and after it only once a
  hibernation, if there is one, has ended and has been waited for
  (`expiry_notions_differ`).
* Nothing bounds the interval of a vault, so the sums can leave the range of `u64`:
  `no_overflow_iff` says exactly when they do not, and `interval_bricks_vault` is a
  funded vault that can neither be kept alive nor released.
-/

namespace Heirloom

open Transaction Runs

/-! ## The notions of expiry -/

/-- A deposit that the checks before the one of the deadline let pass, so that the deadline alone
decides about it. -/
structure DepositAdmitted (e : Env) (s : State) (v : Vault) (source : Address) (amount : Int) :
    Prop where
  unpaused : (s.get .paused).getD false = false
  initialised : (s.get .admin).isSome = true
  positive : 0 < amount
  authorized : e.authorized source = true
  owner : source = v.owner
  running : v.isPaused = false

/-- All the code's notions of expiry agree with `is_expired`: the remaining time, the check of a
deposit, the time of a release and the status in a batch. -/
structure ExpiryAgrees (id : Nat) (v : Vault) (e : Env) (s : State) : Prop where
  remaining : getTtlRemaining id e s = .ok (none, s) ↔ isExpired id e s = .ok (true, s)
  deposit : ∀ source amount, deposit id source amount e s = .error (.error .vaultExpired) ↔
    DepositAdmitted e s v source amount ∧ isExpired id e s = .ok (true, s)
  release : (∃ x, expiryTime id v e s = .ok (x, s) ∧ x ≤ e.timestamp) ↔
    isExpired id e s = .ok (true, s)
  status : ∀ ids l x, getVaultBatchStatus ids e s = .ok (l, s) → x ∈ l → x.vaultId = id →
    (x.isExpired = true ↔ isExpired id e s = .ok (true, s))

/-- The time is before the deadline, or after it and the hibernation, if any, has ended
and has been added. -/
def ClearOfDeadline (id : Nat) (v : Vault) (e : Env) (s : State) : Prop :=
  e.timestamp < v.deadline ∨ (v.deadline < e.timestamp ∧ ∀ h, s.get (.hibernation id) = some h →
    h.durationSeconds ≤ e.timestamp - h.startedAt ∧
      v.deadline + h.durationSeconds ≤ e.timestamp)

section Expiry

variable {e : Env} {s t : State} {id : Nat} {v : Vault} {source : Address} {amount : Int}

theorem expiredAfter_iff {hibernated : Nat} : expiredAfter v e.timestamp hibernated e s = .ok (true, s) ↔
    v.deadline + hibernated ≤ e.timestamp := by
  have htime := e.timestamp_le
  simp only [expiredAfter, Tx.ok_bind, ok_u64, Tx.ok_pure, Vault.deadline]
  constructor
  · rintro ⟨_, _, ⟨_, rfl, rfl⟩, _, _, ⟨_, rfl, rfl⟩, hle, _⟩
    simpa using hle
  · intro hle
    exact ⟨_, s, ⟨by omega, rfl, rfl⟩, _, s, ⟨by omega, rfl, rfl⟩, by simpa using hle, rfl⟩

/-- `is_expired` in one formula. -/
theorem isExpired_iff (hv : s.vault id = some v) : isExpired id e s = .ok (true, s) ↔
    v.deadline ≤ e.timestamp ∧ ∀ h, s.get (.hibernation id) = some h →
      h.durationSeconds ≤ e.timestamp - h.startedAt ∧
        v.deadline + h.durationSeconds ≤ e.timestamp := by
  simp only [isExpired, Tx.ok_bind, ok_loadVault, hv, ok_timestamp, ok_storageGet,
    Tx.ok_ifSomeElse, Tx.ok_ite, Tx.ok_pure]
  cases hh : s.get (.hibernation id) with
  | none => simp [hh, expiredAfter_iff]
  | some h =>
      simp [hh, expiredAfter_iff]
      omega

theorem getTtlRemaining_iff (hv : s.vault id = some v) :
    getTtlRemaining id e s = .ok (none, s) ↔ v.deadline ≤ e.timestamp := by
  have htime := e.timestamp_le
  simp [getTtlRemaining, hv, Vault.deadline]
  omega

theorem assertBeforeDeadline_iff : assertBeforeDeadline v e s = .error (.error .vaultExpired) ↔
    v.deadline ≤ e.timestamp := by
  have htime := e.timestamp_le
  simp [assertBeforeDeadline, Vault.deadline]
  omega

theorem expiryTime_iff : (∃ x, expiryTime id v e s = .ok (x, s) ∧ x ≤ e.timestamp) ↔
    v.deadline + (s.get (.hibernation id)).elim 0
      (fun h => min (e.timestamp - h.startedAt) h.durationSeconds) ≤ e.timestamp := by
  have htime := e.timestamp_le
  simp [expiryTime, Vault.deadline]
  omega

theorem deposit_expired_iff (hv : s.vault id = some v) (hlocked : v.status = .locked) :
    deposit id source amount e s = .error (.error .vaultExpired) ↔
      DepositAdmitted e s v source amount ∧ v.deadline ≤ e.timestamp := by
  have htransfer : ∀ {u : State}, transfer v.tokenAddress source currentContractAddress amount e u ≠
      .error (.error .vaultExpired) := fun h => by simpa using transfer_trap h
  rw [← assertBeforeDeadline_iff (s := s)]
  have hchecks : deposit id source amount e s = .error (.error .vaultExpired) ↔
      (s.get .paused).getD false = false ∧ (s.get .admin).isSome = true ∧ 0 < amount ∧
        e.authorized source = true ∧ source = v.owner ∧ v.isPaused = false ∧
          assertBeforeDeadline v e s = .error (.error .vaultExpired) := by
    simp [deposit, assertNotPaused, loadPaused, requireInitialized, loadVault, saveVault, hv,
      hlocked, htransfer]
  rw [hchecks]
  constructor
  · rintro ⟨hpaused, hinit, hpos, hauth, howner, hrunning, hexpired⟩
    exact ⟨⟨hpaused, hinit, hpos, hauth, howner, hrunning⟩, hexpired⟩
  · rintro ⟨⟨hpaused, hinit, hpos, hauth, howner, hrunning⟩, hexpired⟩
    exact ⟨hpaused, hinit, hpos, hauth, howner, hrunning, hexpired⟩

theorem batchStatus_iff (hv : s.vault id = some v) (hlocked : v.status = .locked) {ids : List Nat}
    {l : List VaultStatusSummary} {x : VaultStatusSummary}
    (h : getVaultBatchStatus ids e s = .ok (l, s)) (hx : x ∈ l) (hid : x.vaultId = id) :
    x.isExpired = true ↔ v.deadline < e.timestamp := by
  have htime := e.timestamp_le
  simp only [getVaultBatchStatus, Tx.ok_bind, ok_timestamp, Tx.ok_read] at h
  obtain ⟨_, _, ⟨rfl, rfl⟩, rfl, -⟩ := h
  obtain ⟨i, _, hsummary⟩ := List.mem_filterMap.mp hx
  obtain ⟨v', hv', rfl⟩ := Option.map_eq_some_iff.mp hsummary
  obtain rfl : i = id := hid
  obtain rfl : v = v' := Option.some.inj (hv.symm.trans hv')
  simp [Vault.statusSummary, hlocked, saturatingAdd64, Vault.deadline]
  omega

theorem batchStatus_one (hv : s.vault id = some v) :
    getVaultBatchStatus [id] e s = .ok ([v.statusSummary id e.timestamp], s) := by
  simp [getVaultBatchStatus, hv]

end Expiry

/-- In every state and at every time, all notions of expiry of a locked vault agree
exactly if the time is clear of the deadline. -/
theorem expiry_agrees_iff {e : Env} {s : State} {id : Nat} {v : Vault}
    (hv : s.vault id = some v) (hlocked : v.status = .locked) :
    ExpiryAgrees id v e s ↔ ClearOfDeadline id v e s := by
  constructor
  · intro h
    have hremaining := h.remaining
    have hone := batchStatus_one (e := e) hv
    have hstatus := h.status [id] _ _ hone List.mem_cons_self rfl
    rw [batchStatus_iff hv hlocked hone List.mem_cons_self rfl, isExpired_iff hv] at hstatus
    rw [getTtlRemaining_iff hv, isExpired_iff hv] at hremaining
    by_cases hbefore : e.timestamp < v.deadline
    · exact .inl hbefore
    · have hall := hremaining.mp (not_lt.mp hbefore)
      exact .inr ⟨hstatus.mpr hall, hall.2⟩
  · intro h
    have hexpired : isExpired id e s = .ok (true, s) ↔ v.deadline < e.timestamp := by
      rw [isExpired_iff hv]
      obtain hbefore | ⟨hafter, hhibernated⟩ := h
      · exact iff_of_false (fun hle => by omega) (by omega)
      · exact iff_of_true ⟨hafter.le, hhibernated⟩ hafter
    have hne : v.deadline ≤ e.timestamp ↔ v.deadline < e.timestamp := by
      obtain hbefore | ⟨hafter, -⟩ := h <;> omega
    refine ⟨?_, fun source amount => ?_, ?_, fun ids l x hl hx hid => ?_⟩
    · rw [getTtlRemaining_iff hv, hexpired, hne]
    · rw [deposit_expired_iff hv hlocked, hexpired, hne]
    · rw [expiryTime_iff, hexpired]
      obtain hbefore | ⟨hafter, hhibernated⟩ := h
      · exact iff_of_false (by omega) (by omega)
      · refine iff_of_true ?_ hafter
        cases hh : s.get (.hibernation id) with
        | none => simpa using hafter.le
        | some entry =>
            obtain ⟨_, hpassed⟩ := hhibernated entry hh
            exact (Nat.add_le_add_left (min_le_right _ _) _).trans hpassed
    · rw [batchStatus_iff hv hlocked hl hx hid, hexpired]

/-- A vault before its deadline. -/
theorem expiry_agrees_before_deadline : ∃ (w : World) (v : Vault), Reachable w ∧
    w.state.vault 1 = some v ∧ ExpiryAgrees 1 v (signedBy [] 50) w.state := by
  have hplay : (play (initialised ⟨8⟩ ⟨9⟩)
      [opensVault 100]).any
      (fun w => (w.state.vault 1).any fun v => v.status = .locked ∧ v.deadline = 100) = true := by
    decide +kernel
  obtain ⟨w, hw, hchecks⟩ := (Option.any_eq_true _ _).mp hplay
  obtain ⟨v, hv, hlocked, hdeadline⟩ : ∃ v, w.state.vault 1 = some v ∧ v.status = .locked ∧
      v.deadline = 100 := by simpa [Option.any_eq_true] using hchecks
  have hreach : Reachable w := reachable_of_play hw
  have htime : (signedBy [] 50).timestamp = 50 := rfl
  refine ⟨w, v, hreach, hv, (expiry_agrees_iff hv hlocked).mpr (.inl ?_)⟩
  rw [htime, hdeadline]
  decide

/-- At its deadline a vault is expired, but its status summary does not say so. -/
theorem expiry_notions_differ : ¬ ∀ (w : World) (e : Env) (id : Nat) (v : Vault), Reachable w →
    w.clock ≤ e.timestamp → w.state.vault id = some v → v.status = .locked →
      ExpiryAgrees id v e w.state := by
  have hplay : (play (initialised ⟨8⟩ ⟨9⟩)
      [opensVault 100]).any
      (fun w => (w.state.vault 1).any (fun v => v.status = .locked ∧ v.deadline = 100) ∧
        w.clock = 0 ∧ w.state.get (.hibernation 1) = none) = true := by decide +kernel
  obtain ⟨w, hw, hchecks⟩ := (Option.any_eq_true _ _).mp hplay
  simp only [decide_eq_true_eq] at hchecks
  obtain ⟨v, hv, hlocked, hdeadline⟩ : ∃ v, w.state.vault 1 = some v ∧ v.status = .locked ∧
      v.deadline = 100 := by simpa [Option.any_eq_true] using hchecks.1
  have htime : (signedBy [] 100).timestamp = 100 := rfl
  intro h
  have hagrees := h w (signedBy [] 100) 1 v (reachable_of_play hw) (by simp [hchecks.2.1]) hv hlocked
  have hone := batchStatus_one (e := signedBy [] 100) hv
  have hstatus := hagrees.status [1] _ _ hone List.mem_cons_self rfl
  rw [batchStatus_iff hv hlocked hone List.mem_cons_self rfl, isExpired_iff hv, htime,
    hdeadline] at hstatus
  simp [hchecks.2.2] at hstatus

/-! ## Overflow in the arithmetic of deadlines -/

/-- The hibernation that `trigger_release` adds to the deadline. -/
def State.hibernated (s : State) (id now : Nat) : Nat :=
  (s.get (.hibernation id)).elim 0 fun h => min (now - h.startedAt) h.durationSeconds

def State.decayRate (s : State) : Nat := (s.get .ttlDecayRate).getD 0

def State.gracePeriod (s : State) : Nat := (s.get .releaseGracePeriodSeconds).getD 0

section Overflow

variable {e : Env} {s t : State} {id : Nat} {v : Vault} {mode : ReleaseTrigger}

theorem expiredAfter_overflow {hibernated : Nat} :
    expiredAfter v e.timestamp hibernated e s = .error .overflow ↔
      u64Max < v.deadline + hibernated := by
  simp [expiredAfter, Vault.deadline]
  omega

theorem isExpired_overflow (hv : s.vault id = some v) : isExpired id e s = .error .overflow ↔
    (∀ h, s.get (.hibernation id) = some h → h.durationSeconds ≤ e.timestamp - h.startedAt) ∧
      u64Max < v.deadline + s.hibernated id e.timestamp := by
  have hload : loadVault id e s = .ok (v, s) := by simp [hv]
  cases hh : s.get (.hibernation id) with
  | none => simp [isExpired, hload, hh, expiredAfter_overflow, State.hibernated]
  | some h =>
      simp [isExpired, hload, hh, expiredAfter_overflow, State.hibernated]
      omega

theorem getTtlRemaining_overflow (hv : s.vault id = some v) :
    getTtlRemaining id e s = .error .overflow ↔ u64Max < v.deadline := by
  simp [getTtlRemaining, tryLoadVault, hv, Vault.deadline]

theorem assertMaxTtl_overflow {now interval : Nat} :
    assertMaxTtl now interval e s = .error .overflow ↔
      u64Max < now + interval ∨ u64Max < now + s.maxTtl := by
  simp [assertMaxTtl, getMaxTtlSeconds, State.maxTtl]
  omega

theorem assertGracePeriodOver_overflow :
    assertGracePeriodOver id v e s = .error .overflow ↔
      u64Max < v.deadline + s.hibernated id e.timestamp + s.gracePeriod := by
  cases hh : s.get (.hibernation id) <;>
    simp [assertGracePeriodOver, expiryTime, Vault.deadline, State.hibernated, State.gracePeriod,
      hh] <;> omega

/-- TTL decay at `rate` stays in range. It only charges anything once the owner has been silent for
30 days, so that only then the rate matters. -/
def Vault.DecayFits (v : Vault) (now rate : Nat) : Prop :=
  v.lastCheckIn + thirtyDays ≤ u64Max ∧ (v.lastCheckIn + thirtyDays ≤ now → rate ≤ 10000 ∧
    (v.deadline - now) * (10000 - rate) ≤ u64Max ∧
      v.checkInInterval ≤ now + (v.deadline - now) * (10000 - rate) / 10000)

theorem bind_u64_overflow {β : Type} {n : Nat} {f : Nat → Contract β} :
    (u64 n >>= f) e s = .error .overflow ↔ (n ≤ u64Max → f n e s = .error .overflow) := by
  by_cases hn : n ≤ u64Max
  · rw [Tx.bind_of_ok (ok_u64.mpr ⟨hn, rfl, rfl⟩)]
    simp only [hn, forall_const]
  · rw [Tx.bind_of_error (err_u64.mpr ⟨by omega, rfl⟩)]
    simp only [hn, false_imp_iff]

theorem bind_subU_overflow {β : Type} {n m : Nat} {f : Nat → Contract β} :
    (subU n m >>= f) e s = .error .overflow ↔ (m ≤ n → f (n - m) e s = .error .overflow) := by
  by_cases hn : m ≤ n
  · rw [Tx.bind_of_ok (ok_subU.mpr ⟨hn, rfl, rfl⟩)]
    simp only [hn, forall_const]
  · rw [Tx.bind_of_error (err_subU.mpr ⟨by omega, rfl⟩)]
    simp only [hn, false_imp_iff]

theorem bind_decayedTtl_overflow {β : Type} {remaining rate : Nat} {f : Nat → Contract β} :
    (decayedTtl remaining rate >>= f) e s = .error .overflow ↔
      (rate ≤ 10000 → remaining * (10000 - rate) ≤ u64Max →
        f (remaining * (10000 - rate) / 10000) e s = .error .overflow) := by
  by_cases hrate : rate ≤ 10000
  · by_cases hfits : remaining * (10000 - rate) ≤ u64Max
    · have hdecayed : decayedTtl remaining rate e s =
          .ok (remaining * (10000 - rate) / 10000, s) := by
        unfold decayedTtl
        rw [Tx.bind_of_ok (ok_subU.mpr ⟨hrate, rfl, rfl⟩),
          Tx.bind_of_ok (ok_u64.mpr ⟨hfits, rfl, rfl⟩)]
        rfl
      rw [Tx.bind_of_ok hdecayed]
      exact ⟨fun h _ _ => h, fun h => h hrate hfits⟩
    · have hover : decayedTtl remaining rate e s = .error .overflow := by
        unfold decayedTtl
        rw [bind_subU_overflow]
        intro _
        rw [bind_u64_overflow]
        exact fun h => absurd h hfits
      rw [Tx.bind_of_error hover]
      exact iff_of_true rfl fun _ h => absurd h hfits
  · have hover : decayedTtl remaining rate e s = .error .overflow := by
      unfold decayedTtl
      rw [bind_subU_overflow]
      exact fun h => absurd h hrate
    rw [Tx.bind_of_error hover]
    exact iff_of_true rfl fun h => absurd h hrate

theorem decayed_le {remaining rate : Nat} :
    remaining * (10000 - rate) / 10000 ≤ remaining := by
  refine Nat.div_le_of_le_mul ?_
  rw [Nat.mul_comm 10000]
  exact Nat.mul_le_mul_left _ (Nat.sub_le _ _)

theorem decay_overflow {remaining rate now interval : Nat} : (do
    let decayed ← decayedTtl remaining rate
    let newDeadline ← u64 (now + decayed)
    let newLastCheckIn ← subU newDeadline interval
    saveVault id (v.withLastCheckIn newLastCheckIn)
    return decayed : Contract Nat) e s = .error .overflow ↔
      (rate ≤ 10000 → remaining * (10000 - rate) ≤ u64Max →
        now + remaining * (10000 - rate) / 10000 ≤ u64Max →
          now + remaining * (10000 - rate) / 10000 < interval) := by
  have hsave : ∀ (x : Nat) (u : Vault),
      (saveVault id u >>= fun _ => (pure x : Contract Nat)) e s ≠ .error .overflow := by
    simp [saveVault]
  rw [bind_decayedTtl_overflow]
  refine imp_congr_right fun _ => imp_congr_right fun _ => ?_
  rw [bind_u64_overflow]
  refine imp_congr_right fun _ => ?_
  rw [bind_subU_overflow]
  exact ⟨fun h => not_le.mp fun hle => hsave _ _ (h hle), fun h hle => absurd hle (not_le.mpr h)⟩

theorem decay_arith {deadline now silentUntil rate product decayed interval top : Nat}
    (hfits : deadline ≤ top) (htime : now ≤ top) (hsilence : silentUntil ≤ top)
    (hsilent : silentUntil ≤ now) (hdecayed : decayed ≤ deadline - now) :
    (rate ≤ 10000 → product ≤ top → now + decayed ≤ top → now + decayed < interval) ↔
      ¬ (silentUntil ≤ top ∧ (silentUntil ≤ now →
        rate ≤ 10000 ∧ product ≤ top ∧ interval ≤ now + decayed)) := by
  have htop : now + decayed ≤ top := by omega
  constructor
  · rintro h ⟨-, hall⟩
    obtain ⟨hrate, hproduct, hinterval⟩ := hall hsilent
    have := h hrate hproduct htop
    omega
  · intro h hrate hproduct _
    by_contra hge
    exact h ⟨hsilence, fun _ => ⟨hrate, hproduct, by omega⟩⟩

theorem applyTtlDecay_overflow (hv : s.vault id = some v) (hlocked : v.status = .locked)
    (hfits : v.deadline ≤ u64Max) : applyTtlDecay id e s = .error .overflow ↔
      s.decayRate ≠ 0 ∧ ¬ v.DecayFits e.timestamp s.decayRate := by
  have hremaining : getTtlRemaining id e s ≠ .error .overflow := fun h => by
    have := (getTtlRemaining_overflow hv).mp h
    omega
  have hload : loadVault id e s = .ok (v, s) := by simp [hv]
  have hrate : getTtlDecayRate e s = .ok (s.decayRate, s) := by
    simp [getTtlDecayRate, State.decayRate]
  have hreturn : (getTtlRemaining id >>= fun r => (pure (r.getD 0) : Contract Nat)) e s ≠
      .error .overflow := by simp [hremaining]
  unfold applyTtlDecay
  rw [Tx.bind_of_ok hload, Tx.bind_of_ok (a := ()) (ok_require.mpr ⟨hlocked, rfl⟩),
    Tx.bind_of_ok hrate, Tx.bind_of_ok (ok_timestamp.mpr ⟨rfl, rfl⟩)]
  by_cases hzero : s.decayRate = 0
  · rw [if_pos hzero]
    exact iff_of_false hreturn fun h => h.1 hzero
  rw [if_neg hzero, bind_u64_overflow]
  by_cases hsilence : v.lastCheckIn + thirtyDays ≤ u64Max
  · by_cases hsilent : e.timestamp < v.lastCheckIn + thirtyDays
    · rw [if_pos hsilent]
      exact iff_of_false (fun h => hreturn (h hsilence))
        fun h => h.2 ⟨hsilence, fun hle => absurd hle (by omega)⟩
    · rw [if_neg hsilent]
      have hdeadline : u64 (v.lastCheckIn + v.checkInInterval) e s = .ok (v.deadline, s) :=
        ok_u64.mpr ⟨hfits, rfl, rfl⟩
      have htail : (u64 (v.lastCheckIn + v.checkInInterval) >>= fun currentDeadline => do
          let decayed ← decayedTtl (currentDeadline - e.timestamp) s.decayRate
          let newDeadline ← u64 (e.timestamp + decayed)
          let newLastCheckIn ← subU newDeadline v.checkInInterval
          saveVault id (v.withLastCheckIn newLastCheckIn)
          return decayed) e s = .error .overflow ↔ ¬ v.DecayFits e.timestamp s.decayRate := by
        rw [Tx.bind_of_ok hdeadline, decay_overflow, Vault.DecayFits]
        exact decay_arith hfits e.timestamp_le hsilence (not_lt.mp hsilent) decayed_le
      exact ⟨fun h => ⟨hzero, htail.mp (h hsilence)⟩, fun h _ => htail.mpr h.2⟩
  · exact iff_of_true (fun h => absurd h hsilence) ⟨hzero, fun h => hsilence h.1⟩

/-! The rest of a release does no arithmetic on deadlines, so it cannot overflow. -/

theorem avoids_assertHeirsReady : Tx.Avoids .overflow (assertHeirsReady id v) := by
  intro e s
  simp [assertHeirsReady, getBeneficiaryStatus, checkConditionalAcceptanceThreshold,
      assertProofOfLife, assertVotesPassed]

theorem Cleared.isExpired_overflow (h : Cleared id s t) (hv : s.vault id = some v) :
    isExpired id e t = .error .overflow ↔ isExpired id e s = .error .overflow := by
  rw [Heirloom.isExpired_overflow ((h.vault id).trans hv), Heirloom.isExpired_overflow hv,
    State.hibernated, State.hibernated, h.get _ (by simp)]

theorem Cleared.isExpired_iff (h : Cleared id s t) (hv : s.vault id = some v) :
    isExpired id e t = .ok (true, t) ↔ isExpired id e s = .ok (true, s) := by
  rw [Heirloom.isExpired_iff ((h.vault id).trans hv), Heirloom.isExpired_iff hv, h.get _ (by simp)]

theorem anyConditionMet_overflow {conditions : List ReleaseCondition} {met : Bool}
    (hexpired : isExpired id e s ≠ .error .overflow) :
    foldEach conditions met (fun met condition => do
      let here ← conditionMet id mode condition
      return met || here) e s ≠ .error .overflow := by
  induction conditions generalizing met with
  | nil => simp [foldEach]
  | cons c rest ih =>
      have hc : conditionMet id mode c e s ≠ .error .overflow := by
        cases c <;> simp [conditionMet, oracleQuery, hexpired]
      intro h
      simp only [foldEach, Tx.err_bind, Tx.ok_bind, hc, Tx.err_pure, Tx.ok_pure, false_or,
        exists_false, and_false] at h
      obtain ⟨_, _, ⟨_, _, hok, -, rfl⟩, hrest⟩ := h
      obtain rfl := readOnly_conditionMet _ _ _ _ hok
      exact ih hrest

/-- The first checks of a release only overflow where `is_expired` does. -/
theorem assertReleaseRequested_overflow (hv : s.vault id = some v)
    (hexpired : isExpired id e s ≠ .error .overflow) :
    assertReleaseRequested id mode e s ≠ .error .overflow := by
  obtain ⟨t, ht⟩ : ∃ t, tryRestoreArchivedVault id e s = .ok ((), t) := tryRestoreArchivedVault_ok
  have hcleared : Cleared id s t := tryRestoreArchivedVault_spec _ _ ht
  have hnot : isExpired id e t ≠ .error .overflow := by
    rwa [Ne, hcleared.isExpired_overflow hv]
  have hconditions : getReleaseConditions id e t ≠ .error .overflow := by
    simp [getReleaseConditions, loadVault]
  intro h
  simp [assertReleaseRequested, assertNotPaused, loadPaused, ht, loadVault, hconditions] at h
  obtain ⟨_, _, _, _, _, conditions, u, hok, hany⟩ := h
  obtain rfl := readOnly_getReleaseConditions _ _ _ _ hok
  exact anyConditionMet_overflow hnot hany

theorem assertGracePeriodOver_frame (h : Cleared id s t) :
    assertGracePeriodOver id v e t = .error .overflow ↔
      assertGracePeriodOver id v e s = .error .overflow := by
  simp only [assertGracePeriodOver_overflow, State.hibernated, State.gracePeriod]
  rw [h.get _ (by simp), h.get _ (by simp)]

theorem assertReleasable_overflow (hv : s.vault id = some v) (hlocked : v.status = .locked)
    (hrunning : (s.get .paused).getD false = false)
    (hexpired : isExpired id e s ≠ .error .overflow) :
    assertReleasable id e s = .error .overflow ↔ isExpired id e s = .ok (true, s) ∧
      u64Max < v.deadline + s.hibernated id e.timestamp + s.gracePeriod := by
  obtain ⟨t, ht⟩ : ∃ t, tryRestoreArchivedVault id e s = .ok ((), t) := tryRestoreArchivedVault_ok
  have hcleared : Cleared id s t := tryRestoreArchivedVault_spec _ _ ht
  have hvt : t.vault id = some v := (hcleared.vault id).trans hv
  have hnot : isExpired id e t ≠ .error .overflow := by
    rwa [Ne, hcleared.isExpired_overflow hv]
  have hload : loadVault id e t = .ok (v, t) := by simp [hvt]
  have hpaused : assertNotPaused e s = .ok ((), s) := by simp [hrunning]
  have hlock : require (v.status = .locked) .alreadyReleased e t = .ok ((), t) := by simp [hlocked]
  have hveto : assertNotVetoed id e t ≠ .error .overflow := by
    simp [assertNotVetoed, hnot]
  rw [← assertGracePeriodOver_overflow, ← assertGracePeriodOver_frame hcleared,
    ← hcleared.isExpired_iff hv]
  unfold assertReleasable
  rw [Tx.bind_of_ok hpaused, Tx.bind_of_ok ht,
    Tx.bind_of_ok hload, Tx.bind_of_ok hlock]
  simp only [Tx.err_bind, hnot, false_or, err_require, reduceCtorEq, and_false, ok_require]
  constructor
  · rintro ⟨_, _, hok, _, _, ⟨rfl, rfl⟩, hgrace | ⟨_, _, hgrace, _, _, ⟨_, rfl⟩, hover⟩⟩
    · obtain rfl := readOnly_isExpired _ _ _ _ hok
      exact ⟨hok, hgrace⟩
    · -- the checks after the grace period do no arithmetic on deadlines
      obtain rfl := readOnly_isExpired _ _ _ _ hok
      obtain rfl := readOnly_assertGracePeriodOver _ _ _ _ hgrace
      obtain hover | ⟨_, _, _, hover | ⟨_, _, hover⟩⟩ := hover
      · exact (hveto hover).elim
      · exact (avoids_assertHeirsReady _ _ hover).elim
      · exact hover.elim
  · rintro ⟨hok, hgrace⟩
    exact ⟨true, t, hok, (), t, ⟨rfl, rfl⟩, .inl hgrace⟩

/-- What a release has to get past before it adds up the end of the grace period. -/
def ReleaseDue (id : Nat) (mode : ReleaseTrigger) (e : Env) (s : State) : Prop :=
  (∃ t, assertReleaseRequested id mode e s = .ok ((), t)) ∧ isExpired id e s = .ok (true, s)

theorem triggerReleaseInternal_overflow (hv : s.vault id = some v) (hlocked : v.status = .locked)
    (hexpired : isExpired id e s ≠ .error .overflow) :
    triggerReleaseInternal id mode e s = .error .overflow ↔ ReleaseDue id mode e s ∧
      u64Max < v.deadline + s.hibernated id e.timestamp + s.gracePeriod := by
  have hrest : ∀ w t, (do
      let acceptance : Option ConditionalAcceptanceEntry ← storageGet (.conditionalAcceptance id)
      let now ← timestamp
      if acceptance.any (ConditionalAcceptanceEntry.lapsed · now) = true then refundOwner id w
      else releaseToHeirs id w mode) e t ≠ .error .overflow := by
    intro w t
    have hne : Failure.overflow ≠ .trap := by decide
    simp [avoids_refundOwner hne _ _, avoids_releaseToHeirs hne _ _]
  have hreleasable : ∀ t, assertReleaseRequested id mode e s = .ok ((), t) →
      (assertReleasable id e t = .error .overflow ↔ isExpired id e s = .ok (true, s) ∧
        u64Max < v.deadline + s.hibernated id e.timestamp + s.gracePeriod) := by
    intro t ht
    have hcleared : Cleared id s t := (assertReleaseRequested_spec _ _ ht).1
    have hnot : isExpired id e t ≠ .error .overflow := by
      rwa [Ne, hcleared.isExpired_overflow hv]
    have hrunning : (s.get .paused).getD false = false := by
      simp [assertReleaseRequested] at ht
      exact ht.1
    rw [assertReleasable_overflow ((hcleared.vault id).trans hv) hlocked
      (by rwa [hcleared.get _ (by simp)]) hnot, hcleared.isExpired_iff hv]
    simp only [State.hibernated, State.gracePeriod]
    rw [hcleared.get _ (by simp), hcleared.get _ (by simp)]
  rw [triggerReleaseInternal, Tx.err_bind]
  simp only [assertReleaseRequested_overflow hv hexpired, false_or]
  constructor
  · rintro ⟨_, t, ht, hover⟩
    obtain hover | ⟨_, _, _, hover⟩ := Tx.err_bind.mp hover
    · obtain ⟨hdue, hgrace⟩ := (hreleasable t ht).mp hover
      exact ⟨⟨⟨t, ht⟩, hdue⟩, hgrace⟩
    · exact (hrest _ _ hover).elim
  · rintro ⟨⟨⟨t, ht⟩, hdue⟩, hgrace⟩
    exact ⟨(), t, ht, Tx.err_bind.mpr (.inl ((hreleasable t ht).mpr ⟨hdue, hgrace⟩))⟩

end Overflow

theorem prepareCheckIn_interval {e : Env} {s : State} {id nonce : Nat} {v : Vault}
    {caller : Address} {hash : Bytes32} (hv : s.vault id = some v) :
    wp (prepareCheckIn id caller hash nonce)
      (fun x t => x.checkInInterval = v.checkInInterval ∧ t.maxTtl = s.maxTtl) e s := by
  simp [prepareCheckIn, spendDelegateNonce, hv]
  intro _ _ _ _
  refine ⟨fun _ _ _ _ _ _ _ _ _ => ?_, fun _ _ _ _ _ _ => ?_⟩ <;>
    refine Tx.wp_mono payInactivityPenalty_spec ?_ <;>
    rintro _ _ ⟨log, rfl, -⟩ <;>
    simp [State.maxTtl]

/-- None of the operations on vault `id` overflows when it adds up a deadline. The
arithmetic of `check_in` is the check of its new deadline. -/
structure NoOverflow (id : Nat) (e : Env) (s : State) : Prop where
  expired : isExpired id e s ≠ .error .overflow
  remaining : getTtlRemaining id e s ≠ .error .overflow
  decay : applyTtlDecay id e s ≠ .error .overflow
  release : ∀ mode, triggerReleaseInternal id mode e s ≠ .error .overflow
  checkIn : ∀ caller hash nonce x t, prepareCheckIn id caller hash nonce e s = .ok (x, t) →
    assertMaxTtl e.timestamp x.checkInInterval e t ≠ .error .overflow

/-- Some caller's check-in gets as far as the check of its new deadline: everything before it
passes. -/
def CheckInDue (id : Nat) (e : Env) (s : State) : Prop :=
  ∃ caller hash nonce x t, prepareCheckIn id caller hash nonce e s = .ok (x, t)

/-- The sums that the operations on a vault compute are in range, where they get as
far as computing them. -/
structure DeadlinesFit (id : Nat) (v : Vault) (e : Env) (s : State) : Prop where
  deadline : v.deadline ≤ u64Max
  hibernated : ∀ h, s.get (.hibernation id) = some h →
    h.durationSeconds ≤ e.timestamp - h.startedAt → v.deadline + h.durationSeconds ≤ u64Max
  decay : s.decayRate ≠ 0 → v.DecayFits e.timestamp s.decayRate
  grace : ∀ mode, ReleaseDue id mode e s →
    v.deadline + s.hibernated id e.timestamp + s.gracePeriod ≤ u64Max
  checkIn : CheckInDue id e s →
    e.timestamp + v.checkInInterval ≤ u64Max ∧ e.timestamp + s.maxTtl ≤ u64Max


theorem no_overflow_iff {e : Env} {s : State} {id : Nat} {v : Vault}
    (hv : s.vault id = some v) (hlocked : v.status = .locked) :
    NoOverflow id e s ↔ DeadlinesFit id v e s := by
  have hcheckIn : ∀ {caller hash nonce x t}, prepareCheckIn id caller hash nonce e s = .ok (x, t) →
      (assertMaxTtl e.timestamp x.checkInInterval e t ≠ .error .overflow ↔
        e.timestamp + v.checkInInterval ≤ u64Max ∧ e.timestamp + s.maxTtl ≤ u64Max) := by
    intro caller hash nonce x t hok
    obtain ⟨hinterval, hmax⟩ := prepareCheckIn_interval hv _ _ hok
    rw [Ne, assertMaxTtl_overflow, hinterval, hmax]
    omega
  constructor
  · intro h
    have hdeadline : v.deadline ≤ u64Max := by
      have := h.remaining
      rw [Ne, getTtlRemaining_overflow hv] at this
      omega
    refine ⟨hdeadline, fun entry hentry hover => ?_, fun hrate => ?_, fun mode hdue => ?_, ?_⟩
    · have := h.expired
      rw [Ne, isExpired_overflow hv, State.hibernated, hentry] at this
      simp only [Option.elim, min_eq_right hover, Option.some.injEq, forall_eq', hover, true_and,
        not_lt] at this
      exact this
    · have := h.decay
      rw [Ne, applyTtlDecay_overflow hv hlocked hdeadline] at this
      exact not_not.mp fun hnot => this ⟨hrate, hnot⟩
    · have := h.release mode
      rw [Ne, triggerReleaseInternal_overflow hv hlocked h.expired] at this
      exact not_lt.mp fun hover => this ⟨hdue, hover⟩
    · rintro ⟨caller, hash, nonce, x, t, hok⟩
      exact (hcheckIn hok).mp (h.checkIn caller hash nonce x t hok)
  · intro h
    have hexpired : isExpired id e s ≠ .error .overflow := by
      rw [Ne, isExpired_overflow hv, State.hibernated]
      rintro ⟨hended, hover⟩
      have hdeadline := h.deadline
      cases hh : s.get (.hibernation id) with
      | none =>
          simp [hh] at hover
          omega
      | some entry =>
          have hfits := h.hibernated entry hh (hended entry hh)
          simp [hh, hended entry hh] at hover
          omega
    refine ⟨hexpired, ?_, ?_, fun mode => ?_, fun caller hash nonce x t hok => ?_⟩
    · rw [Ne, getTtlRemaining_overflow hv]
      exact not_lt.mpr h.deadline
    · rw [Ne, applyTtlDecay_overflow hv hlocked h.deadline]
      rintro ⟨hrate, hnot⟩
      exact hnot (h.decay hrate)
    · rw [Ne, triggerReleaseInternal_overflow hv hlocked hexpired]
      rintro ⟨hdue, hover⟩
      exact absurd hover (not_lt.mpr (h.grace mode hdue))
    · exact (hcheckIn hok).mpr (h.checkIn ⟨caller, hash, nonce, x, t, hok⟩)

/-- A funded vault with an ordinary interval. -/
theorem no_overflow_ordinary : ∃ (w : World) (v : Vault), Reachable w ∧
    w.state.vault 1 = some v ∧ 0 < v.balance ∧ NoOverflow 1 (signedBy [⟨1⟩] 50) w.state := by
  have hplay : (play (initialised ⟨8⟩ ⟨9⟩)
      [opensVault 100, paysIn 60]).any
      (fun w => (w.state.vault 1).any (fun v => v.status = .locked ∧ v.deadline = 100 ∧
          0 < v.balance ∧ v.checkInInterval = 100) ∧ w.state.get (.hibernation 1) = none ∧
        w.state.decayRate = 0 ∧ w.state.gracePeriod = 0 ∧ w.state.maxTtl = 315360000) = true := by
    decide +kernel
  obtain ⟨w, hw, hchecks⟩ := (Option.any_eq_true _ _).mp hplay
  simp only [decide_eq_true_eq] at hchecks
  obtain ⟨hvault, hnone, hrate, hgrace, hmax⟩ := hchecks
  obtain ⟨v, hv, hlocked, hdeadline, hbalance, hinterval⟩ : ∃ v, w.state.vault 1 = some v ∧
      v.status = .locked ∧ v.deadline = 100 ∧ 0 < v.balance ∧ v.checkInInterval = 100 := by
    simpa [Option.any_eq_true] using hvault
  have htime : (signedBy [⟨1⟩] 50).timestamp = 50 := rfl
  have htop : 100 + 315360000 ≤ u64Max := by decide
  refine ⟨w, v, reachable_of_play hw, hv, hbalance, (no_overflow_iff hv hlocked).mpr ⟨?_, ?_, ?_, ?_, ?_⟩⟩
  · omega
  · simp [hnone]
  · simp [hrate]
  · intro _ _
    simp only [State.hibernated, hnone, Option.elim, hgrace]
    omega
  · intro _
    omega

/-- A vault with funds in it whose interval is raised to the largest `u64`: from then on
`is_expired` overflows at every time. -/
theorem interval_bricks_vault : ¬ ∀ (w : World) (e : Env) (id : Nat) (v : Vault), Reachable w →
    w.clock ≤ e.timestamp → w.state.vault id = some v → v.status = .locked → 0 < v.balance →
      NoOverflow id e w.state := by
  have hplay : (play (initialised ⟨8⟩ ⟨9⟩)
      [(signedBy [⟨1⟩] 1, .vault (.createVault ⟨1⟩ ⟨2⟩ 100 none)),
        (signedBy [⟨1⟩] 1, .vault (.deposit 1 ⟨1⟩ 60)),
        (signedBy [⟨1⟩] 2, .checkIn (.updateCheckInInterval 1 18446744073709551615))]).any
      (fun w => (w.state.vault 1).any (fun v => v.status = .locked ∧ 0 < v.balance ∧
          v.deadline = 18446744073709551617) ∧ w.clock = 2 ∧
        w.state.get (.hibernation 1) = none) = true := by decide +kernel
  obtain ⟨w, hw, hchecks⟩ := (Option.any_eq_true _ _).mp hplay
  simp only [decide_eq_true_eq] at hchecks
  obtain ⟨v, hv, hlocked, hbalance, hdeadline⟩ : ∃ v, w.state.vault 1 = some v ∧
      v.status = .locked ∧ 0 < v.balance ∧ v.deadline = 18446744073709551617 := by
    simpa [Option.any_eq_true] using hchecks.1
  intro h
  have hsafe := (h w (signedBy [] 2) 1 v (reachable_of_play hw) hchecks.2.1.le hv hlocked
    hbalance).remaining
  rw [Ne, getTtlRemaining_overflow hv, hdeadline] at hsafe
  exact hsafe (by decide)

end Heirloom
