import Heirloom.Results.Passkeys

/-!
# What the ways to check in have in common

Six entry points set the time of the last check-in, each with its own copy of a part
of the checks that `check_in` makes.

* `check_in_guards_iff`: of every run, a check-in has found the vault unpaused, its
  passkey valid, the cooldown since every earlier check-in over and the interval within
  the maximum, and has charged the penalty of `check_in`, exactly if it is one that
  takes a passkey, and what its copy of the checks leaves out is so anyway: the cooldown
  since check-ins that are not recorded or, if it does not look at the cooldown at all,
  since every check-in, and the maximum if it is `biometric_check_in`.
* `batch_check_in_without_passkey`: `batch_check_in` takes no passkey.
-/

namespace Heirloom

open Transaction Runs

/-- The time that has to pass between two check-ins. -/
def State.cooldown (s : State) : Nat := (s.get .minCheckInCooldown).getD defaultMinCheckinCooldown

/-- The call checks in vault `id`, alone or as one of the vaults of a batch. -/
def CheckInCall.ChecksIn (id : Nat) : CheckInCall → Prop
  | .checkIn i _ _ _ | .checkInWithGeo i _ _ | .checkInWithPow i _ _ _ _
  | .biometricCheckIn i _ _ _ => i = id
  | .batchCheckIn is _ | .batchCheckInV2 is _ _ | .syncVaultTtls is _ => id ∈ is
  | _ => False

/-- The check-in looks at the time of the last one, and records its own. Only two of the seven entry
points do both. -/
def CheckInCall.Recorded : CheckInCall → Prop
  | .checkIn .. | .checkInWithGeo .. => True
  | _ => False

/-- The cooldown since every earlier check-in of the kind `p` is over, whether or not that check-in
was recorded. A cooldown of zero switches the guard off. -/
def CooledDown (p : CheckInCall → Prop) (ks : List Event) (s : State) (e : Env) (id : Nat) : Prop :=
  s.cooldown ≠ 0 → ∀ e' c, .call e' (.checkIn c) ∈ ks → c.ChecksIn id → p c →
    e'.timestamp + s.cooldown ≤ e.timestamp

/-- What a check-in of vault `id` from `s` to `t` should have made sure of. -/
structure GuardsMet (ks : List Event) (s : State) (e : Env) (c : CheckInCall) (id : Nat) (v : Vault)
    (t : State) : Prop where
  unpaused : v.isPaused = false
  passkey : ∃ hash, c.Presents id hash ∧
    validatePasskeyForCheckin id v hash e.timestamp e s = .ok ((), s)
  cooldown : CooledDown (fun _ => True) ks s e id
  interval : v.checkInInterval ≤ s.maxTtl
  /-- The balance is what `check_in` leaves of it. -/
  penalty : ∃ v' u, t.vault id = some v' ∧
    payInactivityPenalty v v.lastCheckIn e.timestamp e s = .ok (v'.balance, u)

/-- The checks that the entry point leaves out would pass. What is left out differs between the
entry points, and so does this condition. -/
def LeftOut (ks : List Event) (s : State) (e : Env) (id : Nat) (v : Vault) : CheckInCall → Prop
  | .checkIn .. | .checkInWithGeo .. => CooledDown (fun c => ¬ c.Recorded) ks s e id
  | .batchCheckInV2 .. | .checkInWithPow .. => CooledDown (fun _ => True) ks s e id
  | .biometricCheckIn .. =>
      CooledDown (fun _ => True) ks s e id ∧ v.checkInInterval ≤ s.maxTtl
  -- these take no passkey
  | _ => False

section Guards

variable {e : Env} {s t : State} {id : Nat} {v : Vault} {hash : Bytes32} {a : Address}

/-! ## The checks that are made -/

theorem interval_of_assertMaxTtl {now interval : Nat} {u : Unit}
    (h : assertMaxTtl now interval e s = .ok (u, t)) : interval ≤ s.maxTtl := by
  have hwp : wp (assertMaxTtl now interval) (fun _ _ => interval ≤ s.maxTtl) e s := by
    simp [assertMaxTtl, getMaxTtlSeconds, State.maxTtl]
  exact hwp _ _ h

theorem cooldown_of_assert {now : Nat} {u : Unit} (h : assertCooldown id now e s = .ok (u, t))
    (hset : s.cooldown ≠ 0) (last : Nat) (hlast : s.get (.lastCheckInTime id) = some last) :
    last + s.cooldown ≤ now := by
  have hwp : wp (assertCooldown id now) (fun _ _ => last + s.cooldown ≤ now) e s := by
    simp only [assertCooldown, Tx.wp_bind, wp_storageGet, Tx.wp_onlyIf, Tx.wp_ifSome, wp_u64,
      wp_require]
    refine ⟨fun _ => ⟨fun last' hlast' _ hle => ?_, fun hnone => ?_⟩, fun hzero => ?_⟩
    · obtain rfl := Option.some.inj (hlast.symm.trans hlast')
      exact hle
    · simp [hlast] at hnone
    · exact absurd (Nat.eq_zero_of_not_pos hzero) hset
  exact hwp _ _ h

/-- Without a penalty `check_in` leaves the balance as it is. -/
theorem payInactivityPenalty_none {last now : Nat} (h : v.inactivityPenaltyBps = none) :
    payInactivityPenalty v last now e s = .ok (v.balance, s) := by
  simp [payInactivityPenalty, h]

theorem payInactivityPenalty_keeps {last now : Nat} :
    wp (payInactivityPenalty v last now) (fun balance t => (∃ log, t = s.transferAll log) ∧
      (v.inactivityPenaltyBps = none → balance = v.balance)) e s := by
  intro balance t h
  refine ⟨(payInactivityPenalty_spec _ _ h).imp fun _ hlog => hlog.1, fun hnone => ?_⟩
  rw [payInactivityPenalty_none hnone] at h
  cases h
  rfl

/-- What `check_in` looks at besides the passkey, and what it does to the balance. -/
theorem checkIn_checks {nonce : Nat} :
    wp (checkIn id a hash nonce) (fun _ t => ∃ v, s.vault id = some v ∧
      v.checkInInterval ≤ s.maxTtl ∧
      (s.cooldown ≠ 0 → ∀ last, s.get (.lastCheckInTime id) = some last →
        last + s.cooldown ≤ e.timestamp) ∧
      (v.inactivityPenaltyBps = none → ∃ v', t.vault id = some v' ∧ v'.balance = v.balance) ∧
      t.get (.lastCheckInTime id) = some e.timestamp) e s := by
  simp [checkIn, prepareCheckIn, spendDelegateNonce]
  intro _ _ v hv _ _
  refine ⟨fun _ _ _ _ _ _ hcool _ _ => ?_, fun _ _ _ hcool _ _ => ?_⟩ <;>
    refine Tx.wp_mono payInactivityPenalty_keeps ?_ <;>
    rintro balance _ ⟨⟨log, rfl⟩, hbalance⟩ _ hmax <;>
    refine ⟨v, hv, ?_, ?_, by simpa using hbalance⟩
  · simpa [State.maxTtl] using interval_of_assertMaxTtl hmax
  · simpa [State.cooldown] using cooldown_of_assert hcool
  · simpa [State.maxTtl] using interval_of_assertMaxTtl hmax
  · simpa [State.cooldown] using cooldown_of_assert hcool

/-- The interval is checked by all that take a passkey but `biometric_check_in`. -/
theorem execCheckIn_interval {c : CheckInCall} (h : c.Presents id hash)
    (hbio : ∀ i x h b, c ≠ .biometricCheckIn i x h b) :
    wp (execCheckIn c) (fun _ _ => ∃ v, s.vault id = some v ∧ v.checkInInterval ≤ s.maxTtl) e s := by
  cases c with
  | checkIn i x h' n =>
      obtain ⟨rfl, rfl⟩ := h
      exact Tx.wp_mono checkIn_checks fun _ _ ⟨v, hv, hmax, _⟩ => ⟨v, hv, hmax⟩
  | checkInWithGeo i x h' =>
      obtain ⟨rfl, rfl⟩ := h
      exact Tx.wp_mono checkIn_checks fun _ _ ⟨v, hv, hmax, _⟩ => ⟨v, hv, hmax⟩
  | batchCheckInV2 is x h' =>
      obtain ⟨hid, rfl⟩ := h
      simp only [execCheckIn, batchCheckInV2, Tx.wp_bind, wp_loadPaused, wp_require, wp_requireAuth,
        wp_timestamp]
      intro _ _
      rw [← Tx.wp_bind]
      refine Tx.wp_bind_of_first ?_
      induction is with
      | nil => cases hid
      | cons i is ih =>
          simp [forEach, validateBatchCheckInV2]
          intro v hv _ _ _ _ _ _ hmax
          obtain rfl | hid := List.mem_cons.mp hid
          · exact fun _ _ _ => ⟨v, hv, interval_of_assertMaxTtl hmax⟩
          · exact ih (by simp) hid
  | checkInWithPow i x h' n d =>
      obtain ⟨rfl, rfl⟩ := h
      simp only [execCheckIn, checkInWithPow, Tx.wp_bind, wp_loadPaused, wp_require, wp_requireAuth,
        wp_loadVault, wp_isCheckInDelegate, wp_timestamp, wp_validatePasskeyForCheckin, wp_verifyPow,
        wp_assertMaxTtl, wp_saveVault, wp_touchOwnerVaultIds, wp_recordCheckInHistory,
        wp_updateCheckInStreak]
      exact fun _ _ v hv _ _ _ _ _ _ _ _ _ hmax => ⟨v, hv, interval_of_assertMaxTtl hmax⟩
  | biometricCheckIn i x h' b => exact absurd rfl (hbio i x h' b)
  | _ => exact h.elim

/-! ## What is stored about the last check-in -/

variable {c : Call} {ks : List Event}

/-- The time of the last check-in is written by `check_in` alone. -/
theorem Call.cooldown_writer (h : .cooldown ∈ (c.footprint s).areas) :
    (∃ id a hash n, c = .checkIn (.checkIn id a hash n)) ∨
    ∃ id a hash, c = .checkIn (.checkInWithGeo id a hash) := by
  cases c with
  | checkIn c => cases c <;> simp [Call.footprint, CheckInCall.footprint] at h ⊢
  | _ => simpa [Call.areas] using Call.mem_areas h

/-- The stored time of the last check-in is not older than any recorded check-in, and is not in the
future. -/
structure LastKept (id : Nat) (ks : List Event) (w : World) : Prop where
  recorded : ∀ e c, .call e (.checkIn c) ∈ ks → c.ChecksIn id → c.Recorded →
    ∃ last, w.state.get (.lastCheckInTime id) = some last ∧ e.timestamp ≤ last
  passed : ∀ last, w.state.get (.lastCheckInTime id) = some last → last ≤ w.clock

theorem checkIn_last {nonce : Nat} :
    wp (checkIn id a hash nonce) (fun _ t => t.get (.lastCheckInTime id) = some e.timestamp) e s :=
  Tx.wp_mono checkIn_checks fun _ _ ⟨_, _, _, _, _, hlast⟩ => hlast

theorem lastKept_call {w : World} (hnum : w.state.Numbered) (h : LastKept id ks w)
    (hclock : w.clock ≤ e.timestamp) (hexec : exec c e w.state = .ok ((), t)) :
    LastKept id (.call e c :: ks) ⟨t, e.timestamp⟩ := by
  have hframe : Frame (c.footprint w.state) w.state t := exec_frame c hnum _ _ hexec
  by_cases hin : .cooldown ∈ (c.footprint w.state).areas ∧ id ∈ (c.footprint w.state).vaults
  · -- the call records its time, which no earlier time exceeds
    have hlast : t.get (.lastCheckInTime id) = some e.timestamp := by
      obtain ⟨i, x, h', n, rfl⟩ | ⟨i, x, h', rfl⟩ := Call.cooldown_writer hin.1
      · obtain rfl : id = i := by simpa [Call.footprint, CheckInCall.footprint] using hin.2
        exact checkIn_last _ _ hexec
      · obtain rfl : id = i := by simpa [Call.footprint, CheckInCall.footprint] using hin.2
        exact checkIn_last _ _ hexec
    refine ⟨fun e' c' hmem hid hrec => ⟨e.timestamp, hlast, ?_⟩, fun last hl => ?_⟩
    · obtain hnow | hbefore := List.mem_cons.mp hmem
      · rw [(Event.call.inj hnow).1]
      · obtain ⟨last, hl, hle⟩ := h.recorded e' c' hbefore hid hrec
        exact hle.trans ((h.passed last hl).trans hclock)
    · exact (Option.some.inj (hl.symm.trans hlast)).le
  · have hsame : t.get (.lastCheckInTime id) = w.state.get (.lastCheckInTime id) := by
      obtain hno | hno := not_and_or.mp hin
      · exact hframe.get_of_area (by simpa using hno)
      · exact hframe.get_of_vault rfl hno
    refine ⟨fun e' c' hmem hid hrec => ?_, fun last hl => ?_⟩
    · obtain hnow | hbefore := List.mem_cons.mp hmem
      · obtain ⟨rfl, rfl⟩ := Event.call.inj hnow
        refine absurd ⟨?_, ?_⟩ hin
        all_goals cases c' <;> first
          | exact hrec.elim
          | simp_all [Call.footprint, CheckInCall.footprint, CheckInCall.ChecksIn]
      · rw [hsame]
        exact h.recorded e' c' hbefore hid hrec
    · exact (h.passed last (hsame ▸ hl)).trans hclock

theorem lastKept_of_run {w₀ w : World} (h₀ : Genesis w₀) (hrun : Run Step w₀ ks w) (id : Nat) :
    LastKept id ks w := by
  refine history_of_run (I := LastKept id) h₀ hrun ?_
    (fun hnum hI hclock hexec => lastKept_call hnum hI hclock hexec) fun l hI => ?_
  · refine ⟨fun _ _ hmem => absurd hmem List.not_mem_nil, fun last hlast => ?_⟩
    simp [h₀.get (k := .lastCheckInTime id) (by simp)] at hlast
  · refine ⟨fun e c hmem => ?_, hI.passed⟩
    exact hI.recorded e c ((List.mem_cons.mp hmem).resolve_left (by simp))

/-! ## No vault has a penalty -/

theorem penalty_of_reachable {w : World} (h : Reachable w) :
    ∀ i v, w.state.vault i = some v → v.inactivityPenaltyBps = none := by
  refine reachable_invariant (I := fun s : State =>
    ∀ i v, s.vault i = some v → v.inactivityPenaltyBps = none) h ?_ ?_ fun _ hI => hI
  · intro w hw i v hv
    simp [hw.vault i] at hv
  · intro s e c hnum hI
    by_cases hc : c.Creating
    · refine Tx.wp_mono (exec_creates hc) fun _ t ⟨v₀, hcreates⟩ i v hv => ?_
      rw [hcreates.vault] at hv
      split at hv
      · obtain rfl := Option.some.inj hv
        obtain hnone | ⟨j, o, ho, hcopied⟩ := hcreates.fresh.penalty
        · exact hnone
        · exact hcopied.trans (hI j o ho)
      · exact hI i v hv
    · refine Tx.wp_mono (exec_frame c hnum) fun _ t hframe i v hv => ?_
      obtain ⟨v₀, hv₀, hagree⟩ := hframe.vault_before (Call.not_creation hc).1 hv
      exact hagree.penalty.trans (hI i v₀ hv₀)

/-- A check-in that may not touch the balance leaves it as it was. -/
theorem balance_kept {c : CheckInCall} (hnum : s.Numbered) (hv : s.vault id = some v)
    (hbalance : .balance ∉ (c.footprint s).parts) (hexec : exec (.checkIn c) e s = .ok ((), t)) :
    ∃ v', t.vault id = some v' ∧ v'.balance = v.balance := by
  obtain ⟨v', hv', hagree⟩ := (exec_frame (.checkIn c) hnum _ _ hexec).kept id v hv
  exact ⟨v', hv', hagree.balance.resolve_left hbalance⟩

/-- With the stored time of the last check-in only the check-ins that are not recorded are
left to look at. -/
theorem cooledDown_all {w : World} (hkept : LastKept id ks w)
    (hlast : w.state.cooldown ≠ 0 → ∀ last, w.state.get (.lastCheckInTime id) = some last →
      last + w.state.cooldown ≤ e.timestamp)
    (hothers : CooledDown (fun c => ¬ c.Recorded) ks w.state e id) :
    CooledDown (fun _ => True) ks w.state e id := by
  intro hset e' c' hmem hid _
  by_cases hrec : c'.Recorded
  · obtain ⟨last, hl, hle⟩ := hkept.recorded e' c' hmem hid hrec
    exact (Nat.add_le_add_right hle _).trans (hlast hset last hl)
  · exact hothers hset e' c' hmem hid hrec

/-- A check-in that presents a passkey has met all guards, if those are met that not every
entry point looks at. -/
theorem guardsMet_of_exec {c : CheckInCall} (hpresents : c.Presents id hash)
    (hv : s.vault id = some v) (hnone : v.inactivityPenaltyBps = none)
    (hexec : exec (.checkIn c) e s = .ok ((), t)) (hcool : CooledDown (fun _ => True) ks s e id)
    (hmax : v.checkInInterval ≤ s.maxTtl)
    (hbalance : ∃ v', t.vault id = some v' ∧ v'.balance = v.balance) :
    GuardsMet ks s e c id v t := by
  obtain ⟨v₁, haccepts⟩ := execCheckIn_accepts hpresents _ _ hexec
  obtain rfl := Option.some.inj (hv.symm.trans haccepts.vault)
  obtain ⟨v', hv', hsame⟩ := hbalance
  refine ⟨haccepts.unpaused, ⟨hash, hpresents, haccepts.valid⟩, hcool, hmax, v', s, hv', ?_⟩
  rw [hsame, payInactivityPenalty_none hnone]

theorem guardsMet_checkIn {w : World} {c : CheckInCall} {nonce : Nat}
    (hc : execCheckIn c = checkIn id a hash nonce) (hpresents : c.Presents id hash)
    (hv : w.state.vault id = some v) (hnone : v.inactivityPenaltyBps = none)
    (hexec : exec (.checkIn c) e w.state = .ok ((), t)) (hkept : LastKept id ks w)
    (hothers : CooledDown (fun c => ¬ c.Recorded) ks w.state e id) :
    GuardsMet ks w.state e c id v t := by
  have hexec' : checkIn id a hash nonce e w.state = .ok ((), t) := hc ▸ hexec
  obtain ⟨v₁, hv₁, hmax, hlast, hbalance, -⟩ := checkIn_checks _ _ hexec'
  obtain rfl := Option.some.inj (hv.symm.trans hv₁)
  exact guardsMet_of_exec hpresents hv hnone hexec (cooledDown_all hkept hlast hothers) hmax
    (hbalance hnone)

end Guards

/-- In every run, a check-in of a vault has made all checks of `check_in` and has charged its
penalty, if and only if what the entry point leaves out of them would pass. -/
theorem check_in_guards_iff {w₀ w w' : World} {ks : List Event} {e : Env} {c : CheckInCall} {id : Nat}
    {v : Vault} (h₀ : Genesis w₀) (hrun : Run Step w₀ ks w) (hv : w.state.vault id = some v)
    (hid : c.ChecksIn id) (hstep : Step w (.call e (.checkIn c)) w') :
    GuardsMet ks w.state e c id v w'.state ↔ LeftOut ks w.state e id v c := by
  constructor
  · intro h
    have hall := h.cooldown
    obtain ⟨hash, hpresents, -⟩ := h.passkey
    cases c with
    | checkIn | checkInWithGeo => exact fun hset e' c' hmem hc _ => hall hset e' c' hmem hc trivial
    | batchCheckInV2 | checkInWithPow => exact hall
    | biometricCheckIn => exact ⟨hall, h.interval⟩
    | _ => exact hpresents.elim
  · intro h
    have hnone := penalty_of_reachable ⟨w₀, ks, h₀, hrun⟩ id v hv
    have hnum := numbered_of_run hrun h₀
    have hkept := lastKept_of_run h₀ hrun id
    have hinterval : ∀ {hash t}, exec (.checkIn c) e w.state = .ok ((), t) → c.Presents id hash →
        (∀ i x h b, c ≠ .biometricCheckIn i x h b) → v.checkInInterval ≤ w.state.maxTtl := by
      intro hash t hexec hpresents hbio
      obtain ⟨v', hv', hmax⟩ := execCheckIn_interval hpresents hbio _ _ hexec
      obtain rfl := Option.some.inj (hv.symm.trans hv')
      exact hmax
    cases hstep with
    | call _ hexec =>
        cases c with
        | checkIn i x hash n =>
            obtain rfl : i = id := hid
            exact guardsMet_checkIn rfl ⟨rfl, rfl⟩ hv hnone hexec hkept h
        | checkInWithGeo i x hash =>
            obtain rfl : i = id := hid
            exact guardsMet_checkIn rfl ⟨rfl, rfl⟩ hv hnone hexec hkept h
        | batchCheckInV2 is x hash =>
            exact guardsMet_of_exec ⟨hid, rfl⟩ hv hnone hexec h
              (hinterval hexec ⟨hid, rfl⟩ (by simp))
              (balance_kept hnum hv (by simp [CheckInCall.footprint]) hexec)
        | checkInWithPow i x hash n d =>
            exact guardsMet_of_exec ⟨hid, rfl⟩ hv hnone hexec h
              (hinterval hexec ⟨hid, rfl⟩ (by simp))
              (balance_kept hnum hv (by simp [CheckInCall.footprint]) hexec)
        | biometricCheckIn i x hash b =>
            exact guardsMet_of_exec ⟨hid, rfl⟩ hv hnone hexec h.1 h.2
              (balance_kept hnum hv (by simp [CheckInCall.footprint]) hexec)
        | _ => exact h.elim

/-- The owner checks in with a proof of work, long after the last check-in. -/
theorem check_in_guards_iff_later : ∃ w w' : World, ∃ ks v,
    Reachable w ∧ w.state.vault 1 = some v ∧ w.state.keyring 1 ≠ [] ∧
      Step w (.call (signedBy [⟨1⟩] 100)
        (.checkIn (.checkInWithPow 1 ⟨1⟩ (Vector.replicate 32 1) 0 0))) w' ∧
        GuardsMet ks w.state (signedBy [⟨1⟩] 100)
          (.checkInWithPow 1 ⟨1⟩ (Vector.replicate 32 1) 0 0) 1 v w'.state := by
  have hplay : (play (initialised ⟨8⟩ ⟨9⟩)
      [opensVault 1000,
        (signedBy [⟨1⟩] 0, .passkey (.addPasskey 1 ⟨1⟩ (Vector.replicate 32 1))),
        (signedBy [⟨1⟩] 0, .checkIn (.checkIn 1 ⟨1⟩ (Vector.replicate 32 1) 0))]).any (fun w =>
      (play w [(signedBy [⟨1⟩] 100,
        .checkIn (.checkInWithPow 1 ⟨1⟩ (Vector.replicate 32 1) 0 0))]).any fun _ =>
        (w.state.vault 1).any fun _ =>
          decide (w.state.cooldown ≤ 100) && decide ((w.state.keyring 1).length = 1)) = true := by
    decide +kernel
  obtain ⟨w, hw, hplay⟩ := (Option.any_eq_true _ _).mp hplay
  obtain ⟨w', hw', hchecks⟩ := (Option.any_eq_true _ _).mp hplay
  simp only [Bool.and_eq_true, Option.any_eq_true, decide_eq_true_eq] at hchecks
  obtain ⟨v, hv, hcooldown, hkeys⟩ := hchecks
  have hover : LeftOut (eventsOf
      [opensVault 1000,
        (signedBy [⟨1⟩] 0, .passkey (.addPasskey 1 ⟨1⟩ (Vector.replicate 32 1))),
        (signedBy [⟨1⟩] 0, .checkIn (.checkIn 1 ⟨1⟩ (Vector.replicate 32 1) 0))])
      w.state (signedBy [⟨1⟩] 100) 1 v (.checkInWithPow 1 ⟨1⟩ (Vector.replicate 32 1) 0 0) := by
    intro _ e' c' hmem _ _
    obtain ⟨rfl, -⟩ : e' = signedBy [⟨1⟩] 0 ∧ _ := by simpa [eventsOf] using hmem
    have hnow : (signedBy [⟨1⟩] 0).timestamp = 0 ∧ (signedBy [⟨1⟩] 100).timestamp = 100 := by decide
    omega
  exact ⟨w, w', _, v, reachable_of_play hw, hv, fun hnil => by simp [hnil] at hkeys,
    step_of_play hw', (check_in_guards_iff (c := .checkInWithPow 1 ⟨1⟩ (Vector.replicate 32 1) 0 0)
      (genesis_initialised (by decide) (by decide)) (run_of_play hw) hv rfl
      (step_of_play hw')).mpr hover⟩

/-- A passkey is registered; the owner checks in without one. -/
theorem batch_check_in_without_passkey : ¬ ∀ (w₀ w w' : World) (ks : List Event) (e : Env)
    (c : CheckInCall) (id : Nat) (v : Vault), Genesis w₀ → Run Step w₀ ks w →
    w.state.vault id = some v → w.state.keyring id ≠ [] → c.ChecksIn id →
    Step w (.call e (.checkIn c)) w' → GuardsMet ks w.state e c id v w'.state := by
  have hplay : (play (initialised ⟨8⟩ ⟨9⟩)
      [opensVault 1000,
        (signedBy [⟨1⟩] 0, .passkey (.addPasskey 1 ⟨1⟩ (Vector.replicate 32 1)))]).any (fun w =>
      (play w [(signedBy [⟨1⟩] 0, .checkIn (.batchCheckIn [1] ⟨1⟩))]).any fun _ =>
        (w.state.vault 1).any fun _ => decide ((w.state.keyring 1).length = 1)) = true := by
    decide +kernel
  obtain ⟨w, hw, hplay⟩ := (Option.any_eq_true _ _).mp hplay
  obtain ⟨w', hw', hchecks⟩ := (Option.any_eq_true _ _).mp hplay
  simp only [Option.any_eq_true, decide_eq_true_eq] at hchecks
  obtain ⟨v, hv, hkeys⟩ := hchecks
  intro h
  obtain ⟨_, hpresents, -⟩ := (h _ w w' _ _ (.batchCheckIn [1] ⟨1⟩) 1 v
    (genesis_initialised (by decide) (by decide)) (run_of_play hw) hv
    (fun hnil => by simp [hnil] at hkeys) (.head _) (step_of_play hw')).passkey
  exact hpresents

end Heirloom
