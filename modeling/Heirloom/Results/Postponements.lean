import Heirloom.Results.TtlBorrowing

/-!
# Who moves the deadline

The deadline of a locked vault is written by many calls. Most of them ask for the owner, for
someone the owner has named or for a code; decay, the recovery extension and the two sides of a
loan do not.

* `exec_access`: whoever writes the deadline of a vault is on its owner's side, or the call is one
  of these four.
* `deadline_guarded_iff`: a call in which nobody of the owner's side takes part leaves the deadline
  where it is or earlier, unless it is a recovery extension, the return of time lent by the vault,
  or decay after the deadline.
-/

namespace Heirloom

open Transaction Runs

/-! ## The owner's side -/

/-- The recovery contact that the owner of vault `id` has announced last. -/
def contactOf (id : Nat) : List Event → Option Address
  | [] => none
  | .call _ (.checkIn (.setRecoveryContact i _ contact)) :: ks =>
      if i = id then some contact else contactOf id ks
  | _ :: ks => contactOf id ks

/-- The call presents an unused backup code or the recovery code of vault `id`. -/
def Call.presentsCode (e : Env) (s : State) (id : Nat) : Call → Prop
  | .passkey (.useBackupCode i code) => i = id ∧ ∃ codes entry,
      s.get (.backupCodes id) = some codes ∧ entry ∈ codes ∧ entry.code = code ∧ entry.used = false
  | .passkey (.recoverWithCode i code _) =>
      i = id ∧ s.get (.recoveryCodeHash id) = some (e.sha256 code)
  | _ => False

/-- The call is authorised by the owner of vault `id` or by someone the owner has named, or it
presents a code. -/
inductive OwnerSide (e : Env) (s : State) (id : Nat) (v : Vault) (contact : Option Address)
    (c : Call) : Prop
  | owner : e.authorized v.owner = true → OwnerSide e s id v contact c
  | delegate (a : Address) : a ∈ (s.get (.checkInDelegates id)).getD [] → e.authorized a = true →
      OwnerSide e s id v contact c
  | holder (hash : Bytes32) (d : PasskeyDelegation) :
      s.get (.passkeyDelegation id hash) = some d → e.timestamp < d.expiresAt →
      e.authorized d.delegate = true → OwnerSide e s id v contact c
  | contact (a : Address) : contact = some a → e.authorized a = true → OwnerSide e s id v contact c
  | code : c.presentsCode e s id → OwnerSide e s id v contact c

/-- The call moves the deadline of vault `id` back without looking who the caller is. -/
def Postpones (e : Env) (s : State) (id : Nat) (v : Vault) : Call → Prop
  | .checkIn (.requestRecoveryExtension i _) => i = id ∧ v.lastCheckIn < e.timestamp
  | .checkIn (.repayTtlBorrow borrower _) => ∃ r, s.get (.ttlBorrow borrower) = some r ∧
      r.lenderVaultId = id ∧ 0 < r.borrowedSeconds ∧ v.lastCheckIn < u64Max
  | .checkIn (.applyTtlDecay i) => i = id ∧ Decays e s v ∧ v.deadline < e.timestamp
  | _ => False

section Deadlines

variable {e : Env} {s t : State} {id : Nat} {v w : Vault} {contact : Option Address} {c : Call}
  {caller : Address} {hash : Bytes32}

/-! ## Who may write the deadline -/

/-- What gives a call access to the deadline of a vault. -/
inductive DeadlineAccess (e : Env) (s : State) (id : Nat) (v : Vault) (contact : Option Address) :
    Call → Prop
  | ownerSide {c : Call} : OwnerSide e s id v contact c → DeadlineAccess e s id v contact c
  | decay : DeadlineAccess e s id v contact (.checkIn (.applyTtlDecay id))
  | extension {a : Address} :
      DeadlineAccess e s id v contact (.checkIn (.requestRecoveryExtension id a))
  | lent {b n : Nat} {a : Address} :
      DeadlineAccess e s id v contact (.checkIn (.borrowTtl b id a n))
  | returned {b : Nat} {a : Address} {r : TtlBorrowRecord} : s.get (.ttlBorrow b) = some r →
      r.lenderVaultId = id → DeadlineAccess e s id v contact (.checkIn (.repayTtlBorrow b a))

theorem ownerSide_of_mayCheckIn (hauth : e.authorized caller = true)
    (hmay : MayCheckIn e s id v caller) : OwnerSide e s id v contact c := by
  rcases hmay with rfl | hlisted | ⟨hash, d, hd, rfl, hvalid⟩
  · exact .owner hauth
  · exact .delegate _ hlisted hauth
  · exact .holder hash d hd hvalid hauth

/-- The caller owns each of the vaults or is a check-in delegate of it. -/
theorem batchCheckInV2_mayCheckIn {ids : List Nat} (hid : id ∈ ids) :
    wp (batchCheckInV2 ids caller hash) (fun _ _ => ∃ v, s.vault id = some v ∧
      e.authorized caller = true ∧ MayCheckIn e s id v caller) e s := by
  simp only [batchCheckInV2, Tx.wp_bind, wp_loadPaused, wp_require, wp_requireAuth, wp_timestamp]
  intro _ hauth
  have hchecks : wp (forEach ids (validateBatchCheckInV2 caller hash e.timestamp)) (fun _ t =>
      t = s ∧ ∀ i ∈ ids, ∃ v, s.vault i = some v ∧ MayCheckIn e s i v caller) e s := by
    refine Tx.wp_forEach_checks fun i => ?_
    simp [validateBatchCheckInV2]
    intro v hv _ hmay _ _ _ _ _
    exact ⟨v, hv, hmay.imp_right .inl⟩
  refine Tx.wp_mono hchecks ?_
  rintro _ t ⟨-, hall⟩ _ _ _
  obtain ⟨v, hv, hmay⟩ := hall id hid
  exact ⟨v, hv, hauth, hmay⟩

theorem syncVaultTtls_owner {ids : List Nat} (hid : id ∈ ids) :
    wp (syncVaultTtls ids caller) (fun _ _ => ∃ v, s.vault id = some v ∧
      e.authorized v.owner = true) e s := by
  simp only [syncVaultTtls, Tx.wp_bind, wp_loadPaused, wp_require, wp_requireAuth, wp_timestamp]
  intro _ hauth
  have hchecks : wp (forEach ids (validateSync caller)) (fun _ t =>
      t = s ∧ ∀ i ∈ ids, ∃ v, s.vault i = some v ∧ caller = v.owner) e s := by
    refine Tx.wp_forEach_checks fun i => ?_
    simp [validateSync]
    intro v hv howner _ _ _
    exact ⟨v, hv, howner⟩
  refine Tx.wp_mono hchecks ?_
  rintro _ t ⟨-, hall⟩ _ _ _
  obtain ⟨v, hv, rfl⟩ := hall id hid
  exact ⟨v, hv, hauth⟩

theorem execCheckIn_access {o : CheckInCall} (hid : id ∈ (o.footprint s).vaults)
    (hparts : .deadline ∈ (o.footprint s).parts ∨ .interval ∈ (o.footprint s).parts) :
    wp (execCheckIn o) (fun _ _ => ∀ v, s.vault id = some v →
      DeadlineAccess e s id v contact (.checkIn o)) e s := by
  cases o with
  | checkIn i a hash n =>
      obtain rfl : id = i := by simpa [CheckInCall.footprint] using hid
      refine Tx.wp_mono checkIn_spec ?_
      rintro _ _ ⟨v, log, htx, -, hauth, hmay, -⟩ v' hv'
      obtain rfl := Option.some.inj (htx.before.symm.trans hv')
      exact .ownerSide (ownerSide_of_mayCheckIn hauth hmay)
  | checkInWithGeo i a hash =>
      obtain rfl : id = i := by simpa [CheckInCall.footprint] using hid
      refine Tx.wp_mono checkIn_spec ?_
      rintro _ _ ⟨v, log, htx, -, hauth, hmay, -⟩ v' hv'
      obtain rfl := Option.some.inj (htx.before.symm.trans hv')
      exact .ownerSide (ownerSide_of_mayCheckIn hauth hmay)
  | batchCheckIn is a =>
      simp only [execCheckIn, batchCheckIn, Tx.wp_bind, wp_loadPaused, wp_require, wp_requireAuth]
      intro _ hauth
      refine Tx.wp_mono validateBatchCheckIn_spec ?_
      rintro _ t ⟨-, howners⟩ _ _ _ _ _ _ v hv
      obtain ⟨v', hv', howner, -⟩ := howners id hid
      obtain rfl := Option.some.inj (hv.symm.trans hv')
      exact .ownerSide (.owner (howner ▸ hauth))
  | batchCheckInV2 is a hash =>
      refine Tx.wp_mono (batchCheckInV2_mayCheckIn hid) ?_
      rintro _ _ ⟨v', hv', hauth, hmay⟩ v hv
      obtain rfl := Option.some.inj (hv.symm.trans hv')
      exact .ownerSide (ownerSide_of_mayCheckIn hauth hmay)
  | checkInWithPow i a hash n d =>
      obtain rfl : id = i := by simpa [CheckInCall.footprint] using hid
      simp [execCheckIn, checkInWithPow]
      intro _ hauth v hv _ hmay _ _ _ _ _ _ v' hv'
      obtain rfl := Option.some.inj (hv.symm.trans hv')
      exact .ownerSide (ownerSide_of_mayCheckIn hauth (hmay.imp_right .inl))
  | biometricCheckIn i a hash b =>
      obtain rfl : id = i := by simpa [CheckInCall.footprint] using hid
      simp [execCheckIn, biometricCheckIn]
      intro _ hauth v hv _ hmay _ _ _ _ _ _ v' hv'
      obtain rfl := Option.some.inj (hv.symm.trans hv')
      exact .ownerSide (ownerSide_of_mayCheckIn hauth (hmay.imp_right .inl))
  | applyTtlDecay i =>
      obtain rfl : id = i := by simpa [CheckInCall.footprint] using hid
      exact fun _ _ _ _ _ => .decay
  | syncVaultTtls is a =>
      refine Tx.wp_mono (syncVaultTtls_owner hid) ?_
      rintro _ _ ⟨v', hv', hauth⟩ v hv
      obtain rfl := Option.some.inj (hv.symm.trans hv')
      exact .ownerSide (.owner hauth)
  | updateCheckInInterval i n =>
      obtain rfl : id = i := by simpa [CheckInCall.footprint] using hid
      simp [execCheckIn, updateCheckInInterval]
      intro _ _ _ _ v hv hauth _ v' hv'
      obtain rfl := Option.some.inj (hv.symm.trans hv')
      exact .ownerSide (.owner hauth)
  | borrowTtl b l a n =>
      rcases eq_or_ne id l with rfl | hl
      · exact fun _ _ _ _ _ => .lent
      · obtain rfl : id = b := by simpa [CheckInCall.footprint, hl] using hid
        simp only [execCheckIn, borrowTtl, Tx.wp_bind, wp_loadPaused, wp_require, wp_requireAuth,
          wp_loadVault, wp_timestamp, wp_u64, wp_storageSet, wp_saveVault]
        intro _ hauth _ v hv howner _ _ _ _ _ _ v' hv'
        obtain rfl := Option.some.inj (hv.symm.trans hv')
        exact .ownerSide (.owner (howner ▸ hauth))
  | repayTtlBorrow b a =>
      simp only [execCheckIn, repayTtlBorrow, Tx.wp_bind, wp_requireAuth, wp_loadVault, wp_require,
        wp_storageGet, Tx.wp_fromSome, wp_saveVault, wp_storageSet]
      intro hauth v hv howner r hr _ _ _ v' hv'
      rcases List.mem_cons.mp hid with rfl | hlender
      · obtain rfl := Option.some.inj (hv.symm.trans hv')
        exact .ownerSide (.owner (howner ▸ hauth))
      · -- the lender has not signed: it gets its time back
        refine .returned hr ?_
        have hmem : id ∈ s.lenderOf b := hlender
        rw [State.lenderOf, hr] at hmem
        exact (List.mem_singleton.mp hmem).symm
  | accelerateTtlDecay i a n =>
      obtain rfl : id = i := by simpa [CheckInCall.footprint] using hid
      simp [execCheckIn, accelerateTtlDecay]
      intro _ hauth _ _ v hv howner _ _ _ v' hv'
      obtain rfl := Option.some.inj (hv.symm.trans hv')
      exact .ownerSide (.owner (howner ▸ hauth))
  | exitHibernation i a =>
      obtain rfl : id = i := by simpa [CheckInCall.footprint] using hid
      simp only [execCheckIn, exitHibernation, Tx.wp_bind, wp_loadLockedByOwner, wp_storageGet,
        Tx.wp_fromSome, wp_timestamp, wp_storageRemove, wp_saveVault]
      intro hauth v hv howner _ _ _ v' hv'
      obtain rfl := Option.some.inj (hv.symm.trans hv')
      exact .ownerSide (.owner (howner ▸ hauth))
  | requestRecoveryExtension i a =>
      obtain rfl : id = i := by simpa [CheckInCall.footprint] using hid
      exact fun _ _ _ _ _ => .extension
  | enterHibernation | addCheckInDelegate | removeCheckInDelegate | setRecoveryContact =>
      simp [CheckInCall.footprint] at hparts

theorem execPasskey_access {o : PasskeyCall} (hid : id ∈ o.footprint.vaults)
    (hparts : .deadline ∈ o.footprint.parts ∨ .interval ∈ o.footprint.parts) :
    wp (execPasskey o) (fun _ _ => (Call.passkey o).presentsCode e s id) e s := by
  cases o with
  | useBackupCode i code =>
      obtain rfl : id = i := by simpa [PasskeyCall.footprint] using hid
      simp only [execPasskey, useBackupCode, Tx.wp_bind, wp_loadVault, wp_require, wp_storageGet,
        Tx.wp_fromSome, wp_timestamp, wp_saveVault, wp_storageSet]
      intro v _ _ codes hcodes entry hentry hunused
      exact ⟨rfl, codes, entry, hcodes, List.mem_of_find?_eq_some hentry,
        by simpa using List.find?_some hentry, hunused⟩
  | recoverWithCode i code p =>
      obtain rfl : id = i := by simpa [PasskeyCall.footprint] using hid
      simp only [execPasskey, recoverWithCode, Tx.wp_bind, wp_loadVault, wp_require, wp_storageGet,
        Tx.wp_fromSome, Tx.wp_ask, wp_timestamp, wp_storageSet, wp_saveVault, wp_storageRemove]
      intro v _ _ hash hhash hmatch
      exact ⟨rfl, hmatch ▸ hhash⟩
  | _ => simp [PasskeyCall.footprint] at hparts

/-- Whoever writes the deadline of a vault has access to it. -/
theorem exec_access (hexec : exec c e s = .ok ((), t)) (hv : s.vault id = some v)
    (hid : id ∈ (c.footprint s).vaults)
    (hparts : .deadline ∈ (c.footprint s).parts ∨ .interval ∈ (c.footprint s).parts) :
    DeadlineAccess e s id v contact c := by
  cases c with
  | checkIn o => exact execCheckIn_access hid hparts _ _ hexec v hv
  | passkey o => exact .ownerSide (.code (execPasskey_access hid hparts _ _ hexec))
  | multisig o =>
      cases o with
      | executeMultisig i pid a =>
          obtain rfl : id = i := by simpa [Call.footprint, MultisigCall.footprint] using hid
          obtain ⟨v', p, hdone⟩ := executeMultisig_spec _ _ hexec
          obtain rfl := Option.some.inj (hv.symm.trans hdone.vault)
          exact .ownerSide (.owner (hdone.owner ▸ hdone.authorized))
      | _ => simp [Call.footprint, MultisigCall.footprint] at hparts
  | _ => exact absurd (hparts.imp Call.mem_parts Call.mem_parts) (by simp [Call.parts])

/-! ## What becomes of the deadline -/

/-- The deadline stays or moves forward, unless the call postpones it. -/
def Moved (e : Env) (s t : State) (id : Nat) (v : Vault) (c : Call) : Prop :=
  ∃ w, t.vault id = some w ∧ (w.deadline ≤ v.deadline ↔ ¬ Postpones e s id v c)

theorem applyTtlDecay_moved (hv : s.vault id = some v) :
    wp (applyTtlDecay id) (fun _ t => Moved e s t id v (.checkIn (.applyTtlDecay id))) e s := by
  refine Tx.wp_mono applyTtlDecay_spec ?_
  rintro _ t ⟨v', hv', -, h⟩
  obtain rfl := Option.some.inj (hv.symm.trans hv')
  rcases h with ⟨rfl, hnot⟩ | ⟨last, decayed, hdecays, hlast, hle, rfl⟩
  · exact ⟨v, hv, iff_of_true le_rfl fun h => hnot h.2.1⟩
  · refine ⟨v.withLastCheckIn last, State.get_put_self, ?_⟩
    have hdeadline : (v.withLastCheckIn last).deadline = e.timestamp + decayed := hlast
    rw [hdeadline]
    constructor
    · rintro hno ⟨-, -, hpast⟩
      exact absurd (hpast.trans_le (Nat.le_add_right _ decayed)) hno.not_gt
    · intro hno
      have hfuture : e.timestamp ≤ v.deadline := by
        by_contra hpast
        exact hno ⟨rfl, hdecays, Nat.lt_of_not_le hpast⟩
      omega

theorem requestRecoveryExtension_moved (hv : s.vault id = some v) :
    wp (requestRecoveryExtension id caller) (fun _ t =>
      Moved e s t id v (.checkIn (.requestRecoveryExtension id caller))) e s := by
  simp only [requestRecoveryExtension, Tx.wp_bind, wp_requireAuth, wp_loadVault, wp_require,
    wp_timestamp, wp_saveVault]
  intro _ v' hv' _
  obtain rfl := Option.some.inj (hv.symm.trans hv')
  refine ⟨v.withLastCheckIn e.timestamp, State.get_put_self, ?_⟩
  show e.timestamp + v.checkInInterval ≤ v.lastCheckIn + v.checkInInterval ↔ _
  rw [Nat.add_le_add_iff_right]
  constructor
  · rintro hle ⟨-, hlt⟩
    exact absurd hlt hle.not_gt
  · exact fun hno => Nat.le_of_not_lt fun hlt => hno ⟨rfl, hlt⟩

theorem borrowTtl_moved {b n : Nat} (hv : s.vault id = some v) :
    wp (borrowTtl b id caller n) (fun _ t =>
      Moved e s t id v (.checkIn (.borrowTtl b id caller n))) e s := by
  refine Tx.wp_mono borrowTtl_spec ?_
  rintro _ t ⟨vb, vl, h⟩
  obtain rfl := Option.some.inj (hv.symm.trans h.lender)
  refine ⟨v.withLastCheckIn (v.lastCheckIn - n), (h.vaults id).trans (if_pos rfl), ?_⟩
  exact iff_of_true (Nat.add_le_add_right (Nat.sub_le _ _) _) not_false

theorem saturatingAdd64_le_iff {a b : Nat} :
    saturatingAdd64 a b ≤ a ↔ ¬ (0 < b ∧ a < u64Max) := by
  unfold saturatingAdd64
  omega

theorem repayTtlBorrow_moved {b : Nat} {r : TtlBorrowRecord} (hr : s.get (.ttlBorrow b) = some r)
    (hlender : r.lenderVaultId = id) (hv : s.vault id = some v) :
    wp (repayTtlBorrow b caller) (fun _ t =>
      Moved e s t id v (.checkIn (.repayTtlBorrow b caller))) e s := by
  refine Tx.wp_mono repayTtlBorrow_spec ?_
  rintro _ t ⟨r', vl, h⟩
  obtain rfl := Option.some.inj (hr.symm.trans h.record)
  subst hlender
  obtain rfl := Option.some.inj (hv.symm.trans h.lender)
  refine ⟨_, (h.vaults _).trans (if_pos rfl), ?_⟩
  show saturatingAdd64 v.lastCheckIn r.borrowedSeconds + v.checkInInterval ≤
    v.lastCheckIn + v.checkInInterval ↔ _
  rw [Nat.add_le_add_iff_right, saturatingAdd64_le_iff]
  constructor
  · rintro hno ⟨r', hr', -, hpositive, hless⟩
    obtain rfl := Option.some.inj (hr.symm.trans hr')
    exact hno ⟨hpositive, hless⟩
  · exact fun hno h => hno ⟨r, hr, rfl, h⟩

/-- A call that postpones the deadline of a vault names it as one whose deadline it writes. -/
theorem Postpones.footprint (h : Postpones e s id v c) :
    id ∈ (c.footprint s).vaults ∧ .deadline ∈ (c.footprint s).parts := by
  unfold Postpones at h
  split at h
  · exact ⟨by simp [Call.footprint, CheckInCall.footprint, h.1],
      by simp [Call.footprint, CheckInCall.footprint]⟩
  · obtain ⟨r, hr, rfl, -⟩ := h
    exact ⟨by simp [Call.footprint, CheckInCall.footprint, State.lenderOf, hr],
      by simp [Call.footprint, CheckInCall.footprint]⟩
  · exact ⟨by simp [Call.footprint, CheckInCall.footprint, h.1],
      by simp [Call.footprint, CheckInCall.footprint]⟩
  · exact h.elim

theorem exec_moved (hnum : s.Numbered) (hexec : exec c e s = .ok ((), t))
    (hv : s.vault id = some v) (hout : ¬ OwnerSide e s id v contact c) : Moved e s t id v c := by
  by_cases hwrites : id ∈ (c.footprint s).vaults ∧
      (.deadline ∈ (c.footprint s).parts ∨ .interval ∈ (c.footprint s).parts)
  · have haccess : DeadlineAccess e s id v contact c := exec_access hexec hv hwrites.1 hwrites.2
    cases haccess with
    | ownerSide hside => exact absurd hside hout
    | decay =>
        have hdecay : wp (execCheckIn (.applyTtlDecay id)) (fun _ t =>
            Moved e s t id v (.checkIn (.applyTtlDecay id))) e s := by
          simp only [execCheckIn, Tx.wp_bind, Tx.wp_pure]
          exact applyTtlDecay_moved hv
        exact hdecay _ _ hexec
    | extension => exact requestRecoveryExtension_moved hv _ _ hexec
    | lent => exact borrowTtl_moved hv _ _ hexec
    | returned hr hlender => exact repayTtlBorrow_moved hr hlender hv _ _ hexec
  · -- outside of its footprint a call changes nothing
    have hno : ¬ Postpones e s id v c := fun h => hwrites ⟨h.footprint.1, .inl h.footprint.2⟩
    have hframe := exec_frame c hnum _ _ hexec
    by_cases hid : id ∈ (c.footprint s).vaults
    · obtain ⟨w, hw, hagree⟩ := hframe.kept id v hv
      have hparts := not_or.mp fun h => hwrites ⟨hid, h⟩
      refine ⟨w, hw, iff_of_true (le_of_eq ?_) hno⟩
      unfold Vault.deadline
      rw [hagree.deadline.resolve_left hparts.1, hagree.interval.resolve_left hparts.2]
    · exact ⟨v, (hframe.vault_eq hid).trans hv, iff_of_true le_rfl hno⟩

/-! ## Every run -/

/-- In every reachable state, a call in which nobody of the owner's side takes part leaves the
deadline of a vault where it is or earlier, if and only if it is none of the three calls that
postpone it. -/
theorem deadline_guarded_iff {w₀ w w' : World} {ks : List Event} (h₀ : Genesis w₀)
    (hrun : Run Step w₀ ks w) (hv : w.state.vault id = some v) (hstep : Step w (.call e c) w')
    (hout : ¬ OwnerSide e w.state id v (contactOf id ks) c) :
    ∃ v', w'.state.vault id = some v' ∧
      (v'.deadline ≤ v.deadline ↔ ¬ Postpones e w.state id v c) :=
  exec_moved (numbered_of_run hrun h₀) hstep.exec_eq hv hout

/-- Decay that nobody signs moves a deadline of the past up to the present. -/
theorem decay_postpones : ∃ (w w' : World) (v v' : Vault), Reachable w ∧
    w.state.vault 1 = some v ∧
      Step w (.call (signedBy [] 20836000) (.checkIn (.applyTtlDecay 1))) w' ∧
        w'.state.vault 1 = some v' ∧ v.deadline < v'.deadline := by
  have hplay : (play (initialised ⟨8⟩ ⟨9⟩)
      [(signedBy [⟨9⟩] 0, .admin (.setTtlDecayRate 100)),
        (signedBy [⟨1⟩] 17280000, .vault (.createVault ⟨1⟩ ⟨2⟩ 3456000 none))]).any (fun w =>
      (play w [(signedBy [] 20836000, .checkIn (.applyTtlDecay 1))]).any fun _ =>
        (w.state.vault 1).any fun v => decide (v.deadline < (signedBy [] 20836000).timestamp ∧
          (w.state.get .ttlDecayRate).getD 0 ≠ 0 ∧
            v.lastCheckIn + thirtyDays ≤ (signedBy [] 20836000).timestamp)) = true := by
    decide +kernel
  obtain ⟨w, hw, hplay⟩ := (Option.any_eq_true _ _).mp hplay
  obtain ⟨w', hw', hplay⟩ := (Option.any_eq_true _ _).mp hplay
  obtain ⟨v, hv, hpast⟩ := (Option.any_eq_true _ _).mp hplay
  obtain ⟨hlate, hdecays⟩ := of_decide_eq_true hpast
  have hnobody : ∀ a, (signedBy [] 20836000).authorized a = false := fun _ => rfl
  have hout : ¬ OwnerSide (signedBy [] 20836000) w.state 1 v none
      (.checkIn (.applyTtlDecay 1)) := by
    intro hside
    cases hside with
    | owner h => exact absurd h (by simp [hnobody])
    | delegate a _ h => exact absurd h (by simp [hnobody])
    | holder hash d _ _ h => exact absurd h (by simp [hnobody])
    | contact a h _ => cases h
    | code h => exact h
  obtain ⟨v', hv', hmoved⟩ := deadline_guarded_iff (genesis_initialised (by decide) (by decide))
    (run_of_play hw) hv (step_of_play hw') hout
  refine ⟨w, w', v, v', reachable_of_play hw, hv, step_of_play hw', hv', ?_⟩
  exact Nat.lt_of_not_le fun hle => hmoved.mp hle ⟨rfl, hdecays, hlate⟩

end Deadlines

end Heirloom
