import Mathlib.Data.List.ReduceOption
import Heirloom.Results.CheckInGuards
import Heirloom.Results.Deadlines

/-!
# Hibernation

`enter_hibernation` stops the clock of a vault for a while: `exit_hibernation` adds the
time that has passed to the last check-in, and `is_expired` adds the whole duration as long
as nobody has exited.

* `hibernation_pauses_iff`: for every hibernation and every sequence of check-ins since,
  the time left after an exit is what it was at the start, and no more than the check-in
  interval, exactly if the check-in that the exit moves on does not end up in the future;
  and without an exit the vault expires when it should at exactly the times that do not lie
  between the right time and the one that the stale entry makes of it.
* `check_in_while_hibernating`: a check-in during hibernation counts the time twice.
-/

namespace Heirloom

open Transaction Runs

/-- A check-in of vault `id`, at the given time, or anything that leaves its last check-in, its
interval and its hibernation alone. -/
inductive HibernationStep (id : Nat) : World → Option Nat → World → Prop
  | checkIn {w w' : World} {e : Env} {c : CheckInCall} :
      c.ChecksIn id → Step w (.call e (.checkIn c)) w' → HibernationStep id w (some e.timestamp) w'
  | other {w w' : World} {k : Event} {v v' : Vault} : Step w k w' →
      w.state.vault id = some v → w'.state.vault id = some v' → v'.lastCheckIn = v.lastCheckIn →
      v'.checkInInterval = v.checkInInterval →
      w'.state.get (.hibernation id) = w.state.get (.hibernation id) → HibernationStep id w none w'

/-- A hibernation of vault `id`, which had the record `v`, entered at `start` for `duration` seconds;
the check-ins since, newest first. -/
structure Hibernation where
  id : Nat
  v : Vault
  start : Nat
  duration : Nat
  checkIns : List Nat

namespace Hibernation

variable (h : Hibernation)

/-- The last check-in so far. -/
def last : Nat := h.checkIns.head?.getD h.v.lastCheckIn

/-- The last check-in as an exit at time `now` leaves it. -/
def lastAfterExit (now : Nat) : Nat :=
  saturatingAdd64 h.last (min (now - h.start) h.duration)

/-- After an exit the countdown goes on where it was, and does not start above the interval. -/
structure TtlPaused (before : Env) (s : State) (after : Env) (t : State) : Prop where
  resumed : h.checkIns = [] → after.timestamp ≤ h.start + h.duration →
    ∀ r, getTtlRemaining h.id before s = .ok (r, s) → getTtlRemaining h.id after t = .ok (r, t)
  atMost : ∀ r, getTtlRemaining h.id after t = .ok (some r, t) → r ≤ h.v.checkInInterval

/-- An exit at time `now` moves the last check-in on, and not into the future; the deadlines are
within the range of a `u64`. -/
def CleanExit (now : Nat) : Prop :=
  (h.checkIns = [] → now ≤ h.start + h.duration → h.v.deadline ≤ u64Max →
      h.v.deadline + (now - h.start) ≤ u64Max) ∧
    (h.lastAfterExit now ≤ now ∨ u64Max < h.lastAfterExit now + h.v.checkInInterval)

/-- While nobody exits, the vault expires by the old deadline and the duration or, once it has
been checked in after the window, by the check-in and the interval. -/
structure ExpiryPaused (e : Env) (s : State) : Prop where
  waited : h.checkIns = [] →
    (isExpired h.id e s = .ok (true, s) ↔ h.v.deadline + h.duration ≤ e.timestamp)
  restarted : ∀ last, h.checkIns.head? = some last → h.start + h.duration ≤ last →
    (isExpired h.id e s = .ok (true, s) ↔ last + h.v.checkInInterval ≤ e.timestamp)

/-- At time `now` the vault is not in the window after a deadline that had passed already, nor in the
`duration` seconds that a closed window adds to a later check-in. -/
def CleanExpiry (now : Nat) : Prop :=
  (h.checkIns = [] → now < h.v.deadline + h.duration ∨ h.start + h.duration ≤ now) ∧
    ∀ last, h.checkIns.head? = some last → h.start + h.duration ≤ last →
      now < last + h.v.checkInInterval ∨ last + h.v.checkInInterval + h.duration ≤ now

/-- What is known of the vault while it hibernates. -/
structure Since (w : World) : Prop where
  numbered : w.state.Numbered
  clock : h.start ≤ w.clock
  entry : w.state.get (.hibernation h.id) = some ⟨h.start, h.duration⟩
  record : ∃ v, w.state.vault h.id = some v ∧ v.checkInInterval = h.v.checkInInterval ∧
    v.lastCheckIn = h.last

end Hibernation

section Hibernating

variable {e : Env} {s t : State} {id : Nat} {v : Vault} {c : CheckInCall} {h : Hibernation}

/-! ## Check-ins -/

theorem batchCheckIn_sets {ids : List Nat} {caller : Address} :
    wp (batchCheckIn ids caller) (fun _ t => ∀ i ∈ ids,
      ∃ v, t.vault i = some v ∧ v.lastCheckIn = e.timestamp) e s := by
  simp only [batchCheckIn, Tx.wp_bind, wp_loadPaused, wp_require, wp_requireAuth, wp_timestamp]
  intro _ _ _ u _
  refine Tx.wp_forEach_all (fun i t => ?_) fun i j t hj => ?_
  · simp [applyBatchCheckIn]
  · by_cases hij : j = i <;> simp [applyBatchCheckIn, hij, hj]

theorem batchCheckInV2_sets {ids : List Nat} {caller : Address} {hash : Bytes32} :
    wp (batchCheckInV2 ids caller hash) (fun _ t => ∀ i ∈ ids,
      ∃ v, t.vault i = some v ∧ v.lastCheckIn = e.timestamp) e s := by
  simp only [batchCheckInV2, Tx.wp_bind, wp_loadPaused, wp_require, wp_requireAuth, wp_timestamp]
  intro _ _ _ u _
  refine Tx.wp_forEach_all (fun i t => ?_) fun i j t hj => ?_
  · simp [applyBatchCheckInV2]
  · by_cases hij : j = i <;> simp [applyBatchCheckInV2, hij, hj]

theorem syncVaultTtls_sets {ids : List Nat} {caller : Address} :
    wp (syncVaultTtls ids caller) (fun _ t => ∀ i ∈ ids,
      ∃ v, t.vault i = some v ∧ v.lastCheckIn = e.timestamp) e s := by
  simp only [syncVaultTtls, Tx.wp_bind, wp_loadPaused, wp_require, wp_requireAuth, wp_timestamp]
  intro _ _ _ u _
  refine Tx.wp_forEach_all (fun i t => ?_) fun i j t hj => ?_
  · simp [applySync]
  · by_cases hij : j = i <;> simp [applySync, hij, hj]

/-- Every check-in sets the time of the last check-in to now. -/
theorem execCheckIn_sets (hc : c.ChecksIn id) :
    wp (execCheckIn c) (fun _ t => ∃ v, t.vault id = some v ∧ v.lastCheckIn = e.timestamp) e s := by
  have hplain : ∀ {caller hash nonce}, wp (checkIn id caller hash nonce)
      (fun _ t => ∃ v, t.vault id = some v ∧ v.lastCheckIn = e.timestamp) e s := by
    intro caller hash nonce
    refine Tx.wp_mono checkIn_spec ?_
    rintro _ t ⟨v, log, htx, -⟩
    exact ⟨_, (htx.after id).trans (if_pos rfl), rfl⟩
  cases c with
  | checkIn i a hash n =>
      obtain rfl : i = id := hc
      exact hplain
  | checkInWithGeo i a hash =>
      obtain rfl : i = id := hc
      exact hplain
  | batchCheckIn is a => exact Tx.wp_mono batchCheckIn_sets fun _ _ h => h id hc
  | batchCheckInV2 is a hash => exact Tx.wp_mono batchCheckInV2_sets fun _ _ h => h id hc
  | syncVaultTtls is a => exact Tx.wp_mono syncVaultTtls_sets fun _ _ h => h id hc
  | checkInWithPow i a hash n d =>
      obtain rfl : i = id := hc
      simp [execCheckIn, checkInWithPow]
  | biometricCheckIn i a hash b =>
      obtain rfl : i = id := hc
      simp [execCheckIn, biometricCheckIn]
  | _ => exact hc.elim

/-- A check-in leaves the interval and the hibernation alone. -/
theorem ChecksIn.footprint (hc : c.ChecksIn id) :
    .interval ∉ (c.footprint s).parts ∧ .hibernation ∉ (c.footprint s).areas := by
  cases c <;> first | exact hc.elim | simp [CheckInCall.footprint]

/-! ## The course of a hibernation -/

theorem Hibernation.Since.of_enter {w w' : World} {a : Address} {d : Nat} (hnum : w.state.Numbered)
    (hv : w.state.vault id = some v)
    (hstep : Step w (.call e (.checkIn (.enterHibernation id a d))) w') :
    0 < d ∧ Hibernation.Since ⟨id, v, e.timestamp, d, []⟩ w' := by
  have hnum' := hstep.numbered hnum
  cases hstep with
  | call _ hexec =>
      have hspec : wp (enterHibernation id a d) (fun _ t => d ≠ 0 ∧
          t = w.state.put (.hibernation id) ⟨e.timestamp, d⟩) e w.state := by
        simp only [enterHibernation, Tx.wp_bind, wp_requireAuth, wp_require, wp_loadLockedByOwner,
          wp_storageGet, wp_timestamp, wp_u64, wp_storageSet]
        exact fun _ hd _ _ _ _ _ _ _ => ⟨hd, trivial⟩
      obtain ⟨hd, rfl⟩ := hspec _ _ hexec
      exact ⟨Nat.pos_of_ne_zero hd, hnum', le_rfl, by simp, v, by simpa using hv, rfl, rfl⟩

theorem Hibernation.Since.step {w w' : World} {k : Option Nat} (hsince : h.Since w)
    (hstep : HibernationStep h.id w k w') :
    Hibernation.Since { h with checkIns := k.toList ++ h.checkIns } w' := by
  obtain ⟨hnum, hclock, hentry, v, hv, hinterval, hlast⟩ := hsince
  cases hstep with
  | checkIn hc hstep =>
      have hnum' := hstep.numbered hnum
      cases hstep with
      | call htime hexec =>
          have hframe := exec_frame (.checkIn _) hnum _ _ hexec
          obtain ⟨v', hv', hset⟩ := execCheckIn_sets hc _ _ hexec
          obtain ⟨v'', hv'', hagree⟩ := hframe.kept h.id v hv
          obtain rfl := Option.some.inj (hv'.symm.trans hv'')
          obtain ⟨hparts, hareas⟩ := ChecksIn.footprint (s := w.state) hc
          refine ⟨hnum', hclock.trans htime, ?_, v', hv', ?_, hset⟩
          · exact (hframe.get_of_area (by simpa [Call.footprint] using hareas)).trans hentry
          · exact (hagree.interval.resolve_left hparts).trans hinterval
  | other hstep hv₁ hv' hlast' hinterval' hentry' =>
      obtain rfl := Option.some.inj (hv.symm.trans hv₁)
      exact ⟨hstep.numbered hnum, hclock.trans hstep.clock_le, hentry'.trans hentry, _, hv',
        hinterval'.trans hinterval, hlast'.trans hlast⟩

theorem Hibernation.Since.of_run {w w' : World} {ks : List (Option Nat)} {d start : Nat}
    (hsince : Hibernation.Since ⟨id, v, start, d, []⟩ w) (hrun : Run (HibernationStep id) w ks w') :
    Hibernation.Since ⟨id, v, start, d, ks.reduceOption⟩ w' := by
  refine hrun.invariantHistory
    (I := fun ks w' => Hibernation.Since ⟨id, v, start, d, ks.reduceOption⟩ w') hsince ?_
  intro ks w₁ k w₂ h₁ hstep
  have h₂ := h₁.step hstep
  cases k with
  | none => simpa using h₂
  | some n => simpa using h₂

/-! ## The end of a hibernation -/

theorem getTtlRemaining_eq {r : Option Nat} (hv : s.vault id = some v) :
    getTtlRemaining id e s = .ok (r, s) ↔ v.deadline ≤ u64Max ∧
      r = if v.deadline ≤ e.timestamp then none else some (v.deadline - e.timestamp) := by
  rw [eq_comm (a := r)]
  simp [getTtlRemaining, hv, Vault.deadline]
  exact fun _ => Iff.rfl

/-- A deadline that moves on with the clock leaves the same time, as long as it does not
saturate. -/
theorem ttl_moved_iff {last interval start elapsed top : Nat} (htop : start + elapsed ≤ top) :
    (∀ r : Option Nat, last + interval ≤ top ∧
        r = (if last + interval ≤ start then none else some (last + interval - start)) →
      min (last + elapsed) top + interval ≤ top ∧
        r = if min (last + elapsed) top + interval ≤ start + elapsed then none
          else some (min (last + elapsed) top + interval - (start + elapsed))) ↔
    (last + interval ≤ top → last + interval + elapsed ≤ top) := by
  constructor
  · intro h hfits
    obtain ⟨hmoved, hsame⟩ := h _ ⟨hfits, rfl⟩
    by_contra hover
    -- then nothing is added to the moved check-in, and the times differ
    have hzero : interval = 0 ∧ top < last + elapsed := by omega
    rw [if_neg (by omega), Nat.min_eq_right (by omega)] at hsame
    split at hsame
    · cases hsame
    · have := Option.some.inj hsame
      omega
  · rintro h r ⟨hfits, rfl⟩
    have hmoved := h hfits
    rw [Nat.min_eq_left (by omega)]
    refine ⟨by omega, ?_⟩
    by_cases hpassed : last + interval ≤ start
    · rw [if_pos hpassed, if_pos (by omega)]
    · rw [if_neg hpassed, if_neg (by omega)]
      congr 1
      omega

theorem exitHibernation_spec {a : Address} :
    wp (exitHibernation id a) (fun _ t => ∃ v entry, s.vault id = some v ∧
      s.get (.hibernation id) = some entry ∧ t.vault id = some (v.withLastCheckIn
        (saturatingAdd64 v.lastCheckIn (min (e.timestamp - entry.startedAt) entry.durationSeconds))))
      e s := by
  simp only [exitHibernation, Tx.wp_bind, wp_loadLockedByOwner, wp_storageGet, Tx.wp_fromSome,
    wp_timestamp, wp_storageRemove, wp_saveVault]
  exact fun _ v hv _ _ entry hentry => ⟨v, entry, hv, hentry, by simp⟩

/-- The record after an exit. -/
theorem Hibernation.Since.exit {w w' : World} {a : Address} (hsince : h.Since w)
    (hstep : Step w (.call e (.checkIn (.exitHibernation h.id a))) w') :
    h.start ≤ e.timestamp ∧ ∃ v', w'.state.vault h.id = some v' ∧
      v'.deadline = h.lastAfterExit e.timestamp + h.v.checkInInterval := by
  obtain ⟨-, hclock, hentry, v, hv, hinterval, hlast⟩ := hsince
  cases hstep with
  | call htime hexec =>
      obtain ⟨v₁, entry, hv₁, hentry₁, hafter⟩ := exitHibernation_spec _ _ hexec
      obtain rfl := Option.some.inj (hv.symm.trans hv₁)
      obtain rfl := Option.some.inj (hentry.symm.trans hentry₁)
      refine ⟨hclock.trans htime, _, hafter, ?_⟩
      rw [Vault.deadline, Hibernation.lastAfterExit, ← hlast, ← hinterval]
      rfl

theorem ttlPaused_iff {before : Env} {v' : Vault} (hv : s.vault h.id = some h.v)
    (hbefore : before.timestamp = h.start) (hv' : t.vault h.id = some v')
    (hstart : h.start ≤ e.timestamp)
    (hafter : v'.deadline = h.lastAfterExit e.timestamp + h.v.checkInInterval) :
    h.TtlPaused before s e t ↔ h.CleanExit e.timestamp := by
  have htime := e.timestamp_le
  have hresumed : (h.checkIns = [] → e.timestamp ≤ h.start + h.duration →
      ∀ r, getTtlRemaining h.id before s = .ok (r, s) → getTtlRemaining h.id e t = .ok (r, t)) ↔
      (h.checkIns = [] → e.timestamp ≤ h.start + h.duration → h.v.deadline ≤ u64Max →
        h.v.deadline + (e.timestamp - h.start) ≤ u64Max) := by
    refine forall_congr' fun hnone => forall_congr' fun hle => ?_
    have hmoved : v'.deadline = min (h.v.lastCheckIn + (e.timestamp - h.start)) u64Max +
        h.v.checkInInterval := by
      rw [hafter, Hibernation.lastAfterExit, Hibernation.last, hnone, saturatingAdd64]
      simp only [List.head?_nil, Option.getD_none]
      rw [Nat.min_eq_left (by omega : e.timestamp - h.start ≤ h.duration)]
    obtain ⟨elapsed, hnow⟩ := Nat.exists_eq_add_of_le hstart
    simp only [getTtlRemaining_eq hv, getTtlRemaining_eq hv', hbefore, hmoved, hnow,
      Nat.add_sub_cancel_left]
    exact ttl_moved_iff (hnow ▸ htime)
  have hatMost : (∀ r, getTtlRemaining h.id e t = .ok (some r, t) → r ≤ h.v.checkInInterval) ↔
      (h.lastAfterExit e.timestamp ≤ e.timestamp ∨
        u64Max < h.lastAfterExit e.timestamp + h.v.checkInInterval) := by
    simp only [getTtlRemaining_eq hv', hafter]
    constructor
    · intro hbound
      by_contra hfar
      obtain ⟨hfuture, hfits⟩ := not_or.mp hfar
      have := hbound _ ⟨not_lt.mp hfits, (if_neg (by omega)).symm⟩
      omega
    · rintro hclean r ⟨hfits, hr⟩
      split at hr
      · cases hr
      · have := Option.some.inj hr
        omega
  exact ⟨fun hp => ⟨hresumed.mp hp.resumed, hatMost.mp hp.atMost⟩,
    fun hc => ⟨hresumed.mpr hc.1, hatMost.mpr hc.2⟩⟩

theorem expiryPaused_iff {w : World} (hsince : h.Since w) (hpos : 0 < h.duration) :
    h.ExpiryPaused e w.state ↔ h.CleanExpiry e.timestamp := by
  obtain ⟨-, -, hentry, v, hv, hinterval, hlast⟩ := hsince
  -- the entry delays the expiry, whenever the last check-in was
  have hexpired : isExpired h.id e w.state = .ok (true, w.state) ↔
      h.start + h.duration ≤ e.timestamp ∧
        h.last + h.v.checkInInterval + h.duration ≤ e.timestamp := by
    rw [isExpired_iff hv]
    simp only [hentry, Option.some.injEq, forall_eq', Vault.deadline, hlast, hinterval]
    omega
  constructor
  · intro hp
    refine ⟨fun hnone => ?_, fun last hhead hclosed => ?_⟩
    · have hiff := hexpired.symm.trans (hp.waited hnone)
      simp only [Hibernation.last, hnone, List.head?_nil, Option.getD_none, Vault.deadline] at hiff ⊢
      omega
    · have hiff := hexpired.symm.trans (hp.restarted last hhead hclosed)
      simp only [Hibernation.last, hhead, Option.getD_some] at hiff
      omega
  · rintro ⟨hwaited, hrestarted⟩
    refine ⟨fun hnone => hexpired.trans ?_, fun last hhead hclosed => hexpired.trans ?_⟩
    · have hnow := hwaited hnone
      simp only [Hibernation.last, hnone, List.head?_nil, Option.getD_none, Vault.deadline] at hnow ⊢
      omega
    · have hnow := hrestarted last hhead hclosed
      simp only [Hibernation.last, hhead, Option.getD_some]
      omega

end Hibernating

/-- Of every hibernation of a vault and every sequence of check-ins since: an exit resumes the
countdown where it was, and not above the interval, if and only if it is clean; and
without one the vault expires at the right time if and only if the time is clear of the
delay that the entry causes. -/
theorem hibernation_pauses_iff {w w₀ w₁ : World} {e₀ : Env} {id d : Nat} {a : Address} {v : Vault}
    {ks : List (Option Nat)} (hw : Reachable w) (hv : w.state.vault id = some v)
    (henter : Step w (.call e₀ (.checkIn (.enterHibernation id a d))) w₀)
    (hrun : Run (HibernationStep id) w₀ ks w₁) :
    let h : Hibernation := ⟨id, v, e₀.timestamp, d, ks.reduceOption⟩
    (∀ e b w₂, Step w₁ (.call e (.checkIn (.exitHibernation id b))) w₂ →
      (h.TtlPaused e₀ w.state e w₂.state ↔ h.CleanExit e.timestamp)) ∧
    ∀ e, h.ExpiryPaused e w₁.state ↔ h.CleanExpiry e.timestamp := by
  intro h
  obtain ⟨hpos, hstart⟩ := Hibernation.Since.of_enter hw.numbered hv henter
  have hsince : h.Since w₁ := hstart.of_run hrun
  refine ⟨fun e b w₂ hexit => ?_, fun e => expiryPaused_iff hsince hpos⟩
  obtain ⟨htime, v₂, hv₂, hdeadline⟩ := hsince.exit hexit
  exact ttlPaused_iff hv rfl hv₂ htime hdeadline

/-- The owner enters hibernation at time 10 for 100 seconds and exits at time 50; 990 seconds are
left, as at the start. -/
theorem hibernation_pauses_iff_early_exit : ∃ w w₀ w₂ : World, ∃ v : Vault, Reachable w ∧
    w.state.vault 1 = some v ∧
    Step w (.call (signedBy [⟨1⟩] 10) (.checkIn (.enterHibernation 1 ⟨1⟩ 100))) w₀ ∧
    Step w₀ (.call (signedBy [⟨1⟩] 50) (.checkIn (.exitHibernation 1 ⟨1⟩))) w₂ ∧
    Hibernation.TtlPaused ⟨1, v, 10, 100, []⟩ (signedBy [⟨1⟩] 10) w.state (signedBy [⟨1⟩] 50)
      w₂.state ∧
    Hibernation.ExpiryPaused ⟨1, v, 10, 100, []⟩ (signedBy [⟨1⟩] 200) w₀.state := by
  have hplay : (play (initialised ⟨8⟩ ⟨9⟩)
      [opensVault 1000]).any (fun w =>
      (play w [(signedBy [⟨1⟩] 10, .checkIn (.enterHibernation 1 ⟨1⟩ 100))]).any fun w₀ =>
        (play w₀ [(signedBy [⟨1⟩] 50, .checkIn (.exitHibernation 1 ⟨1⟩))]).any fun _ =>
          (w.state.vault 1).any fun v =>
            decide (v.lastCheckIn = 0) && decide (v.checkInInterval = 1000)) = true := by
    decide +kernel
  obtain ⟨w, hw, hplay⟩ := (Option.any_eq_true _ _).mp hplay
  obtain ⟨w₀, hw₀, hplay⟩ := (Option.any_eq_true _ _).mp hplay
  obtain ⟨w₂, hw₂, hchecks⟩ := (Option.any_eq_true _ _).mp hplay
  simp only [Bool.and_eq_true, Option.any_eq_true, decide_eq_true_eq] at hchecks
  obtain ⟨v, hv, hlast, hinterval⟩ := hchecks
  obtain ⟨hexit, hexpiry⟩ := hibernation_pauses_iff (reachable_of_play hw) hv (step_of_play hw₀) .start
  refine ⟨w, w₀, w₂, v, reachable_of_play hw, hv, step_of_play hw₀, step_of_play hw₂,
    (hexit _ _ _ (step_of_play hw₂)).mpr ?_, (hexpiry _).mpr ?_⟩
  · refine ⟨fun _ _ _ => ?_, .inl ?_⟩
    · simp [Vault.deadline, hlast, hinterval, signedBy, u64Max]
    · simp [Hibernation.lastAfterExit, Hibernation.last, saturatingAdd64, hlast,
        signedBy, u64Max]
  · refine ⟨fun _ => .inr ?_, fun last hhead => ?_⟩
    · simp [signedBy, u64Max]
    · simp at hhead

/-- The owner checks in at time 50 of a hibernation that began at 10, and exits at once: there are
1040 seconds left, of an interval of 1000. -/
theorem check_in_while_hibernating : ¬ ∀ (w w₀ w₁ w₂ : World) (e₀ e : Env) (id d : Nat)
    (a b : Address) (v : Vault) (ks : List (Option Nat)), Reachable w → w.state.vault id = some v →
    Step w (.call e₀ (.checkIn (.enterHibernation id a d))) w₀ → Run (HibernationStep id) w₀ ks w₁ →
    Step w₁ (.call e (.checkIn (.exitHibernation id b))) w₂ →
    Hibernation.TtlPaused ⟨id, v, e₀.timestamp, d, ks.reduceOption⟩ e₀ w.state e w₂.state := by
  have hplay : (play (initialised ⟨8⟩ ⟨9⟩)
      [opensVault 1000]).any (fun w =>
      (play w [(signedBy [⟨1⟩] 10, .checkIn (.enterHibernation 1 ⟨1⟩ 100))]).any fun w₀ =>
        (play w₀ [(signedBy [⟨1⟩] 50, .checkIn (.batchCheckIn [1] ⟨1⟩))]).any fun w₁ =>
          (play w₁ [(signedBy [⟨1⟩] 50, .checkIn (.exitHibernation 1 ⟨1⟩))]).any fun w₂ =>
            (w.state.vault 1).any fun v => (w₂.state.vault 1).any fun v₂ =>
              decide (v₂.deadline = 1090) && decide (v.checkInInterval = 1000)) = true := by
    decide +kernel
  obtain ⟨w, hw, hplay⟩ := (Option.any_eq_true _ _).mp hplay
  obtain ⟨w₀, hw₀, hplay⟩ := (Option.any_eq_true _ _).mp hplay
  obtain ⟨w₁, hw₁, hplay⟩ := (Option.any_eq_true _ _).mp hplay
  obtain ⟨w₂, hw₂, hchecks⟩ := (Option.any_eq_true _ _).mp hplay
  simp only [Bool.and_eq_true, Option.any_eq_true, decide_eq_true_eq] at hchecks
  obtain ⟨v, hv, v₂, hv₂, hdeadline, hinterval⟩ := hchecks
  have hc : CheckInCall.ChecksIn 1 (.batchCheckIn [1] ⟨1⟩) := .head _
  intro h
  have hpaused := h w w₀ w₁ w₂ _ _ 1 100 ⟨1⟩ ⟨1⟩ v _ (reachable_of_play hw) hv (step_of_play hw₀)
    (.next .start (.checkIn hc (step_of_play hw₁))) (step_of_play hw₂)
  have hleft := hpaused.atMost 1040
    ((getTtlRemaining_eq hv₂).mpr ⟨by simp [hdeadline, u64Max], by simp [hdeadline, signedBy, u64Max]⟩)
  simp [hinterval] at hleft

end Heirloom
