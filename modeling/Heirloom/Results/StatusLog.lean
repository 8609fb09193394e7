import Heirloom.System

/-!
# The status of a vault and the log of its changes

A vault starts locked and is released or cancelled once; `record_state_transition`
writes each change to a log. Not every way to cancel a vault does so, and several
operations credit or debit a vault without looking at its status.

* `status_audited`: in every run whose calls are `Audited`, the status of a vault only
  ever moves from locked to released or cancelled, the log is empty exactly while it is
  locked and otherwise has the one change on record, and a cancelled vault is empty.
* `merged_vault_not_logged`: `merge_vaults` cancels its sources and logs nothing.
-/

namespace Heirloom

open Transaction Runs

/-- A vault with status `x` may come to have status `y`: only a locked one changes, by its release
or cancellation. -/
def ReleaseStatus.Moves (x y : ReleaseStatus) : Prop :=
  y = x ∨ (x = .locked ∧ (y = .released ∨ y = .cancelled))

/-- Vault `id` is there, and its status says that it has been cancelled. -/
def State.Cancelled (s : State) (id : Nat) : Prop :=
  ∃ v, s.vault id = some v ∧ v.status = .cancelled

/-- The call is none that forgets the log, the status or the balance of a cancelled
vault. -/
def Audited (s : State) (_ : Env) : Call → Prop
  -- the sources of a merge are cancelled without a record
  | .vault (.mergeVaults _ sources _) => sources = []
  -- as is a vault by proposal, whatever its status was
  | .multisig (.executeMultisig id pid _) =>
      ∀ p, s.get (.multiSigProposal id pid) = some p → p.operation = .cancelVault → s.Cancelled id
  -- these change a balance whatever the status
  | .withdrawal (.rollbackWithdrawal id _ _) | .withdrawal (.reverseWithdrawal id _ _)
  | .withdrawal (.verifyWithdrawalEscrow id _) => ¬ s.Cancelled id
  | .vesting (.cancelVestingSchedule id i _) => s.Cancelled id →
      ∀ schedule, s.get (.vestingSchedule id i) = some schedule → schedule.unvested = 0
  | .heir (.declineBeneficiaryRole id _) => s.Cancelled id → ∀ a x, ¬ s.Forfeits id a x
  | _ => True

/-- The log of vault `id` accounts for its status, and if it is cancelled it is empty. -/
structure AuditTrail (s : State) (id : Nat) (v : Vault) : Prop where
  empty : s.transitionLog id = [] ↔ v.status = .locked
  entry : v.status ≠ .locked → ∃ entry, s.transitionLog id = [entry] ∧
    entry.fromStatus = .locked ∧ entry.toStatus = v.status
  balance : v.status = .cancelled → v.balance = 0

section StatusLog

variable {e : Env} {s t : State} {id : Nat} {v w : Vault} {c : Call} {log : Log}

/-! ## Changes of the status -/

/-- All that a call may do to the status of vault `id` and to its log. -/
inductive StatusStep (id : Nat) (v w : Vault) (s t : State) : Prop
  | same (hstatus : w.status = v.status) (hlog : t.transitionLog id = s.transitionLog id)
  | released (hlocked : v.status = .locked) (hstatus : w.status = .released)
      (hlog : ∃ actor now,
        t.transitionLog id = s.transitionLog id ++ [⟨.locked, .released, actor, now⟩])
  | cancelled (hlocked : v.status = .locked) (hstatus : w.status = .cancelled)
      (hempty : w.balance = 0)
      (hlog : ∃ actor now,
        t.transitionLog id = s.transitionLog id ++ [⟨.locked, .cancelled, actor, now⟩])

theorem StatusStep.moves (h : StatusStep id v w s t) : v.status.Moves w.status := by
  cases h with
  | same hstatus _ => exact .inl hstatus
  | released hlocked hstatus _ => exact .inr ⟨hlocked, .inl hstatus⟩
  | cancelled hlocked hstatus _ _ => exact .inr ⟨hlocked, .inr hstatus⟩

theorem ReleaseStatus.Moves.trans {x y z : ReleaseStatus} (h : x.Moves y) (h' : y.Moves z) :
    x.Moves z := by
  obtain rfl | ⟨rfl, rfl | rfl⟩ := h
  · exact h'
  · obtain rfl | ⟨h', -⟩ := h'
    · exact .inr ⟨rfl, .inl rfl⟩
    · cases h'
  · obtain rfl | ⟨h', -⟩ := h'
    · exact .inr ⟨rfl, .inr rfl⟩
    · cases h'

/-- The calls that may change the status; only these write to the log. -/
theorem Call.status_writer
    (h : .status ∈ (c.footprint s).parts ∨ .transitions ∈ (c.footprint s).areas) :
    (∃ id a, c = .vault (.cancelVault id a)) ∨ (∃ id l a, c = .vault (.mergeVaults id l a)) ∨
    (∃ id p a, c = .multisig (.executeMultisig id p a)) ∨
    (∃ o id, c = .release o ∧ o.footprint = releaseFootprint id) ∨
    ∃ id p a, c = .release (.revealBeneficiary id p a) := by
  cases c with
  | vault c => cases c <;> simp [Call.footprint, VaultCall.footprint, State.creation] at h ⊢
  | release c =>
      cases c <;> simp [Call.footprint, ReleaseCall.footprint, releaseFootprint] at h ⊢
  | multisig c => cases c <;> simp [Call.footprint, MultisigCall.footprint] at h ⊢
  | _ => simpa [Call.parts, Call.areas] using h.imp Call.mem_parts Call.mem_areas

theorem cancelVault_logs {caller : Address} :
    wp (cancelVault id caller) (fun _ t => ∃ actor now,
      t.transitionLog id = s.transitionLog id ++ [⟨.locked, .cancelled, actor, now⟩]) e s := by
  simp [cancelVault, State.transitionLog]

theorem revealBeneficiary_logs {proof : Bytes} {claim : Address} :
    wp (revealBeneficiary id proof claim) (fun _ t => ∃ actor now,
      t.transitionLog id = s.transitionLog id ++ [⟨.locked, .released, actor, now⟩]) e s := by
  simp [revealBeneficiary, State.transitionLog]

/-- A merge without sources saves the target as it was. -/
theorem mergeVaults_nil {caller : Address} :
    wp (mergeVaults id [] caller) (fun _ t => ∀ i, t.vault i = s.vault i) e s := by
  refine mergeVaults_rule
    (I := fun balance t => t = s ∧ ∀ v, s.vault id = some v → balance = v.balance) ?_ ?_ ?_
  · intro target htarget
    refine ⟨rfl, fun v hv => ?_⟩
    obtain rfl := Option.some.inj (htarget.symm.trans hv)
    rfl
  · exact fun _ _ _ _ _ hmem => absurd hmem List.not_mem_nil
  · rintro target balance _ htarget _ _ _ _ ⟨rfl, hbalance⟩ i
    obtain rfl := hbalance target htarget
    by_cases hi : i = id
    · subst hi
      simpa [Vault.withBalance] using htarget.symm
    · simp [hi]

/-- A call of the release family logs what it does to the status. -/
theorem ReleasesStatus.statusStep (h : ReleasesStatus e id s t v w) : StatusStep id v w s t := by
  obtain ⟨hlocked, hlog⟩ | ⟨hnot, actor, now, hlog⟩ := h.logged
  · exact .same (hlocked.trans h.locked.symm) hlog
  · cases hstatus : w.status with
    | locked => exact absurd hstatus hnot
    | released => exact .released h.locked hstatus ⟨actor, now, hstatus ▸ hlog⟩
    | cancelled => exact .cancelled h.locked hstatus (h.empty hstatus) ⟨actor, now, hstatus ▸ hlog⟩
    | emergencyFrozen => exact absurd hstatus h.unfrozen

/-- A proposal that cancels no vault, or one that is cancelled already. -/
theorem Executes.statusStep {p : MultiSigProposal} {pid : Nat} {caller : Address}
    (h : Executes e id pid caller v p s t) (hw : t.vault id = some w)
    (haudited : p.operation = .cancelVault → v.status = .cancelled) : StatusStep id v w s t := by
  have hlog : t.transitionLog id = s.transitionLog id := by
    rw [State.transitionLog, h.frame.get_of_area (by simp), State.transitionLog]
  refine .same ?_ hlog
  by_cases hop : p.operation = .cancelVault
  · obtain ⟨w', _, htx, houtcome, -⟩ := h.funds
    simp only [hop, MultiSigProposal.Outcome] at houtcome
    obtain rfl : w' = w := by simpa [htx.after] using hw
    rw [houtcome, haudited hop]
    rfl
  · obtain ⟨w', hw', hagree⟩ := h.frame.kept id v h.vault
    obtain rfl := Option.some.inj (hw.symm.trans hw')
    refine hagree.status.resolve_right fun hc => ?_
    cases hparts : p.operation <;> simp_all [MultiSigOperation.parts]

/-- What a call does to the status of a vault. -/
theorem exec_statusStep (hnum : s.Numbered) (hP : Audited s e c) (id : Nat) :
    wp (exec c) (fun _ t => ∀ v w, s.vault id = some v → t.vault id = some w →
      StatusStep id v w s t) e s := by
  intro _ t hexec v w hv hw
  have hframe : Frame (c.footprint s) s t := exec_frame c hnum _ _ hexec
  by_cases hid : id ∈ (c.footprint s).vaults
  swap
  · obtain rfl := Option.some.inj (hv.symm.trans ((hframe.vault_eq hid).symm.trans hw))
    exact .same rfl (by
      rw [State.transitionLog, hframe.get_of_vault rfl hid, State.transitionLog])
  by_cases hwrites : .status ∈ (c.footprint s).parts ∨ .transitions ∈ (c.footprint s).areas
  swap
  · obtain ⟨hstatus, harea⟩ := not_or.mp hwrites
    obtain ⟨w', hw', hagree⟩ := hframe.kept id v hv
    obtain rfl := Option.some.inj (hw.symm.trans hw')
    refine .same (hagree.status.resolve_right fun hc => hstatus hc.1) ?_
    rw [State.transitionLog, hframe.get_of_area (by simpa using harea), State.transitionLog]
  obtain ⟨i, a, rfl⟩ | ⟨i, l, a, rfl⟩ | ⟨i, p, a, rfl⟩ | ⟨o, i, rfl, ho⟩ | ⟨i, p, a, rfl⟩ :=
    Call.status_writer hwrites
  · obtain rfl : id = i := by simpa [Call.footprint, VaultCall.footprint] using hid
    obtain ⟨v', htx, hlocked, -⟩ := cancelVault_spec _ _ hexec
    obtain rfl := Option.some.inj (hv.symm.trans htx.before)
    obtain rfl : (v.withBalance 0).withStatus .cancelled = w := by simpa [htx.after] using hw
    exact .cancelled hlocked rfl rfl (cancelVault_logs _ _ hexec)
  · obtain rfl : l = [] := hP
    obtain rfl := Option.some.inj (hv.symm.trans ((mergeVaults_nil _ _ hexec id).symm.trans hw))
    exact .same rfl (by
      rw [State.transitionLog, hframe.get_of_area (by simp [Call.footprint, VaultCall.footprint]),
        State.transitionLog])
  · obtain rfl : id = i := by simpa [Call.footprint, MultisigCall.footprint] using hid
    obtain ⟨v', p, hdone⟩ := executeMultisig_spec _ _ hexec
    obtain rfl := Option.some.inj (hv.symm.trans hdone.vault)
    refine hdone.statusStep hw fun hop => ?_
    obtain ⟨v', hv', hcancelled⟩ := hP p hdone.proposal hop
    exact Option.some.inj (hv.symm.trans hv') ▸ hcancelled
  · obtain rfl : id = i := by simpa [Call.footprint, ho, releaseFootprint] using hid
    obtain ⟨v', w', hdone⟩ := execRelease_status ho _ _ hexec
    obtain rfl := Option.some.inj (hv.symm.trans hdone.before)
    obtain rfl := Option.some.inj (hw.symm.trans hdone.after)
    exact hdone.statusStep
  · obtain rfl : id = i := by simpa [Call.footprint, ReleaseCall.footprint] using hid
    obtain ⟨v', htx, hlocked, -⟩ := revealBeneficiary_spec _ _ hexec
    obtain rfl := Option.some.inj (hv.symm.trans htx.before)
    obtain rfl : (v.withBalance 0).withStatus .released = w := by simpa [htx.after] using hw
    exact .released hlocked rfl (revealBeneficiary_logs _ _ hexec)

/-! ## A cancelled vault stays empty -/

/-- The vaults that are cancelled and empty in `s` are empty in `t`. -/
def StaysEmpty (s t : State) : Prop :=
  ∀ id v w, s.vault id = some v → t.vault id = some w → v.status = .cancelled → v.balance = 0 →
    w.balance = 0

theorem StaysEmpty.of_eq (h : ∀ i, t.vault i = s.vault i) : StaysEmpty s t := by
  intro i v w hv hw _ hzero
  obtain rfl := Option.some.inj (hv.symm.trans ((h i).symm.trans hw))
  exact hzero

theorem Transacts.staysEmpty (h : Transacts id v w log s t)
    (hw : v.status = .cancelled → v.balance = 0 → w.balance = 0) : StaysEmpty s t := by
  intro i v' w' hv' hw' hcancelled hzero
  rw [h.after] at hw'
  split at hw'
  · next hi =>
      subst hi
      obtain rfl := Option.some.inj (hv'.symm.trans h.before)
      obtain rfl := Option.some.inj hw'
      exact hw hcancelled hzero
  · obtain rfl := Option.some.inj (hv'.symm.trans hw')
    exact hzero

/-- The vault that the call is about has not been cancelled. -/
theorem Transacts.staysEmpty_of_ne (h : Transacts id v w log s t) (hv : v.status ≠ .cancelled) :
    StaysEmpty s t :=
  h.staysEmpty fun hcancelled => absurd hcancelled hv

/-- What the balance covers cannot be taken from an empty vault. -/
theorem Transacts.staysEmpty_of_covered {amount : Int}
    (h : Transacts id v (v.withBalance (v.balance - amount)) log s t) (hnonneg : 0 ≤ amount)
    (hle : amount ≤ v.balance) : StaysEmpty s t :=
  h.staysEmpty fun _ hzero => by
    simp only [Vault.withBalance_balance]
    omega

/-- The records of the cancelled vaults are as they were. -/
def CancelledKept (s t : State) : Prop :=
  ∀ id v, s.vault id = some v → v.status = .cancelled → t.vault id = some v

theorem CancelledKept.staysEmpty (h : CancelledKept s t) : StaysEmpty s t := by
  intro i v w hv hw hcancelled hzero
  obtain rfl := Option.some.inj ((h i v hv hcancelled).symm.trans hw)
  exact hzero

theorem batchWithdraw_cancelled {ids : List Nat} {amounts : List Int} {caller : Address} :
    wp (batchWithdraw ids amounts caller) (fun _ t => CancelledKept s t) e s := by
  refine batchWithdraw_rule ?_ (fun i v hv _ => hv)
  intro hitems _ item hitem v t u hkept htx i x hx hcancelled
  have hne : i ≠ item.1 := by
    rintro rfl
    obtain ⟨y, hy, -, -, hlocked, -⟩ := hitems item hitem
    obtain rfl := Option.some.inj (hx.symm.trans hy)
    simp [hlocked] at hcancelled
  rw [htx.after, if_neg hne]
  exact hkept i x hx hcancelled

theorem batchDeposit_cancelled {source : Address} {deposits : List (Nat × Int)} :
    wp (batchDeposit source deposits) (fun _ t => CancelledKept s t) e s := by
  refine Tx.wp_mono batchDeposit_spec ?_
  rintro _ _ (⟨rfl, -⟩ | ⟨token, ds, hds, -, -, -, rfl⟩) i v hv hcancelled
  · exact hv
  · have hne : ∀ d ∈ ds, i ≠ d.vaultId := by
      rintro d hd rfl
      obtain ⟨hread, -, hlocked⟩ := hds.read d hd
      obtain rfl := Option.some.inj (hv.symm.trans hread)
      simp [hlocked] at hcancelled
    clear hds
    -- every round saves another vault
    suffices h : ∀ u : State, u.vault i = some v → (ds.foldl State.creditBatch u).vault i = some v from
      h _ hv
    induction ds with
    | nil => exact fun _ hu => hu
    | cons d ds ih =>
        intro u hu
        obtain ⟨hd, hrest⟩ := List.forall_mem_cons.mp hne
        exact ih hrest _ (by simpa [State.creditBatch, hd] using hu)

theorem execVault_staysEmpty {c : VaultCall} (hb : .balance ∈ (c.footprint s).parts)
    (hP : Audited s e (.vault c)) : wp (execVault c) (fun _ t => StaysEmpty s t) e s := by
  cases c with
  | deposit =>
      refine Tx.wp_mono deposit_spec ?_
      rintro _ t ⟨v, htx, -, -, hlocked, -⟩
      exact htx.staysEmpty_of_ne (by simp [hlocked])
  | batchDeposit => exact Tx.wp_mono batchDeposit_cancelled fun _ _ h => h.staysEmpty
  | cancelVault =>
      refine Tx.wp_mono cancelVault_spec ?_
      rintro _ t ⟨v, htx, -⟩
      exact htx.staysEmpty fun _ _ => rfl
  | mergeVaults i l a =>
      obtain rfl : l = [] := hP
      exact Tx.wp_mono mergeVaults_nil fun _ _ h => .of_eq h
  | _ => simp [VaultCall.footprint, State.creation] at hb

theorem execWithdrawal_staysEmpty {c : WithdrawalCall} (hb : .balance ∈ c.footprint.parts)
    (hP : Audited s e (.withdrawal c)) :
    wp (execWithdrawal c) (fun _ t => StaysEmpty s t) e s := by
  have hopen : ∀ {id v}, ¬ s.Cancelled id → s.vault id = some v → v.status ≠ .cancelled :=
    fun h hv hcancelled => h ⟨_, hv, hcancelled⟩
  cases c with
  | withdraw =>
      refine Tx.wp_mono withdraw_spec ?_
      rintro _ t ⟨v, htx, hpayment, -⟩
      exact htx.staysEmpty_of_ne (by simp [hpayment.locked])
  | partialLiquidate =>
      refine Tx.wp_mono partialLiquidate_spec ?_
      rintro _ t ⟨v, htx, hpayment, -⟩
      exact htx.staysEmpty_of_ne (by simp [hpayment.locked])
  | batchWithdraw => exact Tx.wp_mono batchWithdraw_cancelled fun _ _ h => h.staysEmpty
  | verifyWithdrawalEscrow =>
      refine Tx.wp_mono verifyWithdrawalEscrow_spec ?_
      rintro _ t ⟨v, escrow, htx, -⟩
      exact htx.staysEmpty_of_ne (hopen hP htx.before)
  | rollbackWithdrawal =>
      refine Tx.wp_mono rollbackWithdrawal_spec ?_
      rintro _ t ⟨v, htx, -⟩
      exact htx.staysEmpty_of_ne (hopen hP htx.before)
  | reverseWithdrawal =>
      refine Tx.wp_mono reverseWithdrawal_spec ?_
      rintro _ t ⟨v, reversal, htx, -⟩
      exact htx.staysEmpty_of_ne (hopen hP htx.before)
  | executeApprovedWithdrawal =>
      refine Tx.wp_mono executeApprovedWithdrawal_spec ?_
      rintro _ t ⟨v, amount, htx, hnonneg, hle⟩
      exact htx.staysEmpty_of_covered hnonneg hle
  | executeScheduledWithdrawal =>
      refine Tx.wp_mono executeScheduledWithdrawal_spec ?_
      rintro _ t ⟨v, log, htx, hcovered, hpaid⟩
      refine htx.staysEmpty fun _ hzero => ?_
      simp only [Vault.withBalance_balance]
      omega
  | _ => simp [WithdrawalCall.footprint] at hb

theorem execCheckIn_staysEmpty {c : CheckInCall} (hb : .balance ∈ (c.footprint s).parts) :
    wp (execCheckIn c) (fun _ t => StaysEmpty s t) e s := by
  cases c with
  | checkIn | checkInWithGeo =>
      refine Tx.wp_mono checkIn_spec ?_
      rintro _ t ⟨v, log, htx, -, -, -, hlocked⟩
      exact htx.staysEmpty_of_ne (by simp [hlocked])
  | _ => simp [CheckInCall.footprint] at hb

theorem execHeir_staysEmpty {c : HeirCall} (hb : .balance ∈ c.footprint.parts)
    (hP : Audited s e (.heir c)) : wp (execHeir c) (fun _ t => StaysEmpty s t) e s := by
  cases c with
  | declineBeneficiaryRole =>
      refine Tx.wp_mono declineBeneficiaryRole_spec ?_
      rintro _ t (⟨-, hsame⟩ | ⟨v, recipient, amount, hforfeits, htx⟩)
      · exact .of_eq hsame
      · refine htx.staysEmpty_of_ne fun hcancelled => ?_
        exact hP ⟨v, htx.before, hcancelled⟩ recipient amount hforfeits
  | _ => simp [HeirCall.footprint] at hb

theorem execRelease_staysEmpty {c : ReleaseCall} (hb : .balance ∈ c.footprint.parts) :
    wp (execRelease c) (fun _ t => StaysEmpty s t) e s := by
  have hrelease : ∀ {i}, c.footprint = releaseFootprint i →
      wp (execRelease c) (fun _ t => StaysEmpty s t) e s := by
    intro i hi _ t hexec j v w hv hw hcancelled hzero
    have hframe : Frame (releaseFootprint i) s t := hi ▸ execRelease_frame c _ _ hexec
    by_cases hj : j = i
    · subst hj
      obtain ⟨v', w', hdone⟩ := execRelease_status hi _ _ hexec
      obtain rfl := Option.some.inj (hv.symm.trans hdone.before)
      simp [hdone.locked] at hcancelled
    · have hsame : t.vault j = s.vault j := hframe.vault_eq (by simpa [releaseFootprint] using hj)
      obtain rfl := Option.some.inj (hv.symm.trans (hsame.symm.trans hw))
      exact hzero
  cases c with
  | triggerRelease | triggerReleaseManual | panicRelease => exact hrelease rfl
  | partialRelease =>
      refine Tx.wp_mono partialRelease_spec ?_
      rintro _ t ⟨v, htx, hpos, hle⟩
      exact htx.staysEmpty_of_covered hpos.le hle
  | revealBeneficiary =>
      refine Tx.wp_mono revealBeneficiary_spec ?_
      rintro _ t ⟨v, htx, -⟩
      exact htx.staysEmpty fun _ _ => rfl

/-- No vault has staked anything. -/
def State.NothingStaked (s : State) : Prop :=
  ∀ id x, s.get (.tokenStaking id) = some x → x.stakedAmount = 0

/-- A schedule with nothing left has nothing to give back. -/
theorem unclaimed_of_unvested {schedule : VestingSchedule} {x : Int}
    (h : schedule.unclaimed e s = .ok (x, s)) (hzero : schedule.unvested = 0) : x = 0 := by
  simp only [VestingSchedule.unclaimed, Tx.ok_bind, ok_divI, ok_i128, Tx.ok_pure] at h
  obtain ⟨_, _, ⟨_, rfl, rfl⟩, _, _, ⟨_, rfl, rfl⟩, rfl, -⟩ := h
  rw [VestingSchedule.unvested] at hzero
  rw [hzero]
  decide

theorem execVesting_staysEmpty {c : VestingCall} (hb : .balance ∈ c.footprint.parts)
    (hs : s.NothingStaked) (hP : Audited s e (.vesting c)) :
    wp (execVesting c) (fun _ t => StaysEmpty s t) e s := by
  have hclaims : ∀ {areas id v amount t}, Claims areas id v amount s t → StaysEmpty s t :=
    fun h => h.transacts.staysEmpty_of_ne (by simp [h.released])
  have hpays : ∀ {id v dest amount t}, PaysOut id v dest amount s t → StaysEmpty s t :=
    fun h => h.transacts.staysEmpty_of_covered h.nonneg h.covered
  cases c with
  | cancelVestingSchedule =>
      refine Tx.wp_mono cancelVestingSchedule_spec ?_
      rintro _ t ⟨v, schedule, x, htx, -, -, hschedule, hx⟩
      refine htx.staysEmpty fun hcancelled hzero => ?_
      have hnothing := hP ⟨v, htx.before, hcancelled⟩ schedule hschedule
      simp only [Vault.withBalance_balance, hzero, unclaimed_of_unvested hx hnothing]
      decide
  | claimVestedInstallment =>
      simp only [execVesting, Tx.wp_bind, Tx.wp_pure]
      refine Tx.wp_mono claimVestedInstallment_spec ?_
      rintro _ _ ⟨_, h⟩
      exact hclaims h.toClaims
  | claimCatchupVesting =>
      simp only [execVesting, Tx.wp_bind, Tx.wp_pure]
      refine Tx.wp_mono claimCatchupVesting_spec ?_
      rintro _ _ ⟨_, h⟩
      exact hclaims h.toClaims
  | claimWithBonus =>
      simp only [execVesting, Tx.wp_bind, Tx.wp_pure]
      refine Tx.wp_mono claimWithBonus_spec ?_
      rintro _ _ ⟨_, h⟩
      exact hclaims h.toClaims
  | claimMilestoneInstallments =>
      simp only [execVesting, Tx.wp_bind, Tx.wp_pure]
      refine Tx.wp_mono claimMilestoneInstallments_spec ?_
      rintro _ _ ⟨_, _, h, _⟩
      exact hclaims h
  | claimStaggeredVesting =>
      simp only [execVesting, Tx.wp_bind, Tx.wp_pure]
      refine Tx.wp_mono claimStaggeredVesting_spec ?_
      rintro _ t ⟨v, log, htx, hreleased, -⟩
      exact htx.staysEmpty_of_ne (by simp [hreleased])
  | clawbackUnvested =>
      simp only [execVesting, Tx.wp_bind, Tx.wp_pure]
      refine Tx.wp_mono clawbackUnvested_spec ?_
      rintro _ _ ⟨_, h, _⟩
      exact hpays h
  | finalizeVestingClaim =>
      simp only [execVesting, Tx.wp_bind, Tx.wp_pure]
      refine Tx.wp_mono finalizeVestingClaim_spec ?_
      rintro _ _ ⟨_, _, h, _⟩
      exact hpays h
  | claimBeneficiaryVesting =>
      simp only [execVesting, Tx.wp_bind, Tx.wp_pure]
      refine Tx.wp_mono claimBeneficiaryVesting_spec ?_
      rintro _ _ ⟨_, h⟩
      exact hpays h
  | distributeYield =>
      refine Tx.wp_mono (distributeYield_spec fun x hx => hs _ x hx) ?_
      rintro _ _ rfl
      exact .of_eq fun _ => rfl
  | _ => simp [VestingCall.footprint] at hb

theorem execMultisig_staysEmpty {c : MultisigCall} (hb : .balance ∈ c.footprint.parts) :
    wp (execMultisig c) (fun _ t => StaysEmpty s t) e s := by
  cases c with
  | executeMultisig i pid a =>
      refine Tx.wp_mono executeMultisig_spec ?_
      rintro _ t ⟨v, p, hdone⟩
      obtain ⟨w, log, htx, houtcome, -⟩ := hdone.funds
      refine htx.staysEmpty fun _ hzero => ?_
      cases hop : p.operation <;> simp only [hop, MultiSigProposal.Outcome] at houtcome
      case withdraw =>
        obtain ⟨amount, hpos, hle, rfl⟩ := houtcome
        simp only [Vault.withBalance_balance]
        omega
      case updateBeneficiary =>
        obtain ⟨_, _, _, rfl⟩ := houtcome
        exact hzero
      case cancelVault =>
        subst houtcome
        rfl
      case updateCheckInInterval =>
        obtain ⟨_, _, rfl⟩ := houtcome
        exact hzero
      case transferOwnership =>
        obtain ⟨_, _, _, rfl⟩ := houtcome
        exact hzero
  | _ => simp [MultisigCall.footprint] at hb

/-- No call that is audited touches the balance of a cancelled vault that is empty. -/
theorem exec_staysEmpty (hnum : s.Numbered) (hs : s.NothingStaked) (hP : Audited s e c) :
    wp (exec c) (fun _ t => StaysEmpty s t) e s := by
  by_cases hb : .balance ∈ (c.footprint s).parts
  · cases c with
    | vault c => exact execVault_staysEmpty hb hP
    | withdrawal c => exact execWithdrawal_staysEmpty hb hP
    | checkIn c => exact execCheckIn_staysEmpty hb
    | heir c => exact execHeir_staysEmpty hb hP
    | release c => exact execRelease_staysEmpty hb
    | vesting c => exact execVesting_staysEmpty hb hs hP
    | multisig c => exact execMultisig_staysEmpty hb
    | _ => exact absurd (Call.mem_parts hb) (by simp [Call.parts])
  · refine Tx.wp_mono (exec_frame c hnum) fun _ t hframe i v w hv hw _ hzero => ?_
    obtain ⟨w', hw', hagree⟩ := hframe.kept i v hv
    obtain rfl := Option.some.inj (hw.symm.trans hw')
    exact (hagree.balance.resolve_left hb).trans hzero

/-- Staking is enabled and disabled; nothing is ever staked. -/
theorem exec_nothingStaked (hnum : s.Numbered) (hs : s.NothingStaked) :
    wp (exec c) (fun _ t => t.NothingStaked) e s := by
  by_cases harea : .staking ∈ (c.footprint s).areas
  · cases c with
    | vesting c =>
        cases c with
        | enableTokenStaking i =>
            simp only [exec, execVesting, enableTokenStaking, Tx.wp_bind, wp_loadVault,
              wp_requireAuth, wp_timestamp, wp_storageSet]
            intro _ _ _ j x hx
            by_cases hj : j = i
            · subst hj
              obtain rfl : _ = x := by simpa using hx
              rfl
            · exact hs j x (by simpa [hj] using hx)
        | disableTokenStaking i =>
            simp only [exec, execVesting, disableTokenStaking, Tx.wp_bind, wp_loadVault,
              wp_requireAuth, wp_storageGet, Tx.wp_ifSome, wp_storageSet]
            intro _ _ _
            refine ⟨fun staking hstaking j x hx => ?_, fun _ => hs⟩
            by_cases hj : j = i
            · subst hj
              obtain rfl : _ = x := by simpa using hx
              exact hs j staking hstaking
            · exact hs j x (by simpa [hj] using hx)
        | _ => simp [Call.footprint, VestingCall.footprint] at harea
    | _ => exact absurd (Call.mem_areas harea) (by simp [Call.areas])
  · refine Tx.wp_mono (exec_frame c hnum) fun _ t hframe i x hx => ?_
    rw [hframe.get_of_area (by simpa using harea)] at hx
    exact hs i x hx

/-! ## The audit trail of every vault -/

/-- A vault that does not exist has no log, and gets none. -/
theorem exec_log_absent (hnum : s.Numbered) :
    wp (exec c) (fun _ t => ∀ id, s.vault id = none → t.transitionLog id = s.transitionLog id)
      e s := by
  intro _ t hexec id hnone
  have hframe : Frame (c.footprint s) s t := exec_frame c hnum _ _ hexec
  by_cases hid : id ∈ (c.footprint s).vaults ∧ .transitions ∈ (c.footprint s).areas
  · obtain ⟨hid, harea⟩ := hid
    -- whoever writes to the log has read the vault
    obtain ⟨i, a, rfl⟩ | ⟨i, l, a, rfl⟩ | ⟨i, p, a, rfl⟩ | ⟨o, i, rfl, ho⟩ | ⟨i, p, a, rfl⟩ :=
      Call.status_writer (.inr harea)
    · obtain rfl : id = i := by simpa [Call.footprint, VaultCall.footprint] using hid
      obtain ⟨v, htx, -⟩ := cancelVault_spec _ _ hexec
      exact absurd (hnone.symm.trans htx.before) (by simp)
    · simp [Call.footprint, VaultCall.footprint] at harea
    · simp [Call.footprint, MultisigCall.footprint] at harea
    · obtain rfl : id = i := by simpa [Call.footprint, ho, releaseFootprint] using hid
      obtain ⟨v, w, hdone⟩ := execRelease_status ho _ _ hexec
      exact absurd (hnone.symm.trans hdone.before) (by simp)
    · obtain rfl : id = i := by simpa [Call.footprint, ReleaseCall.footprint] using hid
      obtain ⟨v, htx, -⟩ := revealBeneficiary_spec _ _ hexec
      exact absurd (hnone.symm.trans htx.before) (by simp)
  · rw [State.transitionLog, State.transitionLog]
    obtain hid | harea := not_and_or.mp hid
    · rw [hframe.get_of_vault rfl hid]
    · rw [hframe.get_of_area (by simpa using harea)]

theorem AuditTrail.step (h : AuditTrail s id v) (hstep : StatusStep id v w s t)
    (hempty : v.status = .cancelled → v.balance = 0 → w.balance = 0) : AuditTrail t id w := by
  cases hstep with
  | same hstatus hlog =>
      refine ⟨by rw [hlog, hstatus]; exact h.empty, fun hnot => ?_, fun hcancelled => ?_⟩
      · rw [hlog, hstatus]
        exact h.entry (hstatus ▸ hnot)
      · have hbefore : v.status = .cancelled := hstatus ▸ hcancelled
        exact hempty hbefore (h.balance hbefore)
  | released hlocked hstatus hlog =>
      obtain ⟨actor, now, hlog⟩ := hlog
      rw [h.empty.mpr hlocked] at hlog
      exact ⟨by simp [hlog, hstatus], fun _ => ⟨_, hlog, rfl, hstatus.symm⟩, by simp [hstatus]⟩
  | cancelled hlocked hstatus hzero hlog =>
      obtain ⟨actor, now, hlog⟩ := hlog
      rw [h.empty.mpr hlocked] at hlog
      exact ⟨by simp [hlog, hstatus], fun _ => ⟨_, hlog, rfl, hstatus.symm⟩, fun _ => hzero⟩

/-- What audited calls keep: an audit trail for every vault, none for the ids that no vault has, and
nothing staked. -/
structure State.Trailed (s : State) : Prop where
  staked : s.NothingStaked
  absent : ∀ id, s.vault id = none → s.transitionLog id = []
  trail : ∀ id v, s.vault id = some v → AuditTrail s id v

theorem exec_trailed (hnum : s.Numbered) (hs : s.Trailed) (hP : Audited s e c) :
    wp (exec c) (fun _ t => t.Trailed) e s := by
  intro _ t hexec
  have hframe : Frame (c.footprint s) s t := exec_frame c hnum _ _ hexec
  refine ⟨exec_nothingStaked hnum hs.staked _ _ hexec, fun i hnone => ?_, fun i w hw => ?_⟩
  · have hbefore : s.vault i = none := by
      by_contra hsome
      obtain ⟨v, hv⟩ := Option.ne_none_iff_exists'.mp hsome
      obtain ⟨w, hw, -⟩ := hframe.kept i v hv
      simp [hnone] at hw
    exact (exec_log_absent hnum _ _ hexec i hbefore).trans (hs.absent i hbefore)
  · cases hv : s.vault i with
    | some v =>
        exact (hs.trail i v hv).step (exec_statusStep hnum hP i _ _ hexec v w hv hw)
          (exec_staysEmpty hnum hs.staked hP _ _ hexec i v w hv hw)
    | none =>
        have hlog : t.transitionLog i = [] :=
          (exec_log_absent hnum _ _ hexec i hv).trans (hs.absent i hv)
        by_cases hc : c.Creating
        · obtain ⟨w', hcreates⟩ := exec_creates hc _ _ hexec
          obtain rfl : w' = w := by
            rw [hcreates.vault] at hw
            split at hw
            · exact Option.some.inj hw
            · simp [hv] at hw
          have hlocked := hcreates.fresh.status
          exact ⟨by simp [hlog, hlocked], fun hnot => absurd hlocked hnot,
            fun _ => hcreates.fresh.balance⟩
        · obtain ⟨v, hv', -⟩ := hframe.vault_before (Call.not_creation hc).1 hw
          simp [hv] at hv'

theorem trailed_of_run {w₀ w : World} {ks : List Event} (h₀ : Genesis w₀)
    (hrun : Run (Guarded Step (OnCalls Audited)) w₀ ks w) : w.state.Trailed := by
  refine invariant_of_calls h₀ hrun ⟨fun i x hx => ?_, fun i _ => ?_, fun i v hv => ?_⟩
    (fun hnum hs hP => exec_trailed hnum hs hP) fun _ hs => ⟨hs.staked, hs.absent, fun i v hv => ?_⟩
  · simp [h₀.get (k := .tokenStaking i) (by simp)] at hx
  · simp [State.transitionLog, h₀.get (k := .stateTransitionLog i) (by simp)]
  · simp [h₀.vault i] at hv
  · exact ⟨(hs.trail i v hv).empty, (hs.trail i v hv).entry, (hs.trail i v hv).balance⟩

/-- The status of a vault over a run. -/
theorem moves_of_run {w w' : World} {ks : List Event} (hnum : w.state.Numbered)
    (hrun : Run (Guarded Step (OnCalls Audited)) w ks w') (hv : w.state.vault id = some v) :
    ∃ v', w'.state.vault id = some v' ∧ v.status.Moves v'.status := by
  have hboth : w'.state.Numbered ∧ ∃ v', w'.state.vault id = some v' ∧ v.status.Moves v'.status := by
    refine hrun.invariant (I := fun w' => w'.state.Numbered ∧
      ∃ v', w'.state.vault id = some v' ∧ v.status.Moves v'.status) ⟨hnum, v, hv, .inl rfl⟩ ?_
    rintro w₁ k w₂ ⟨hnum₁, v₁, hv₁, hmoves⟩ ⟨hstep, hP⟩
    refine ⟨hstep.numbered hnum₁, ?_⟩
    cases hstep with
    | call _ hexec =>
        obtain ⟨v₂, hv₂, -⟩ := (exec_frame _ hnum₁ _ _ hexec).kept id v₁ hv₁
        exact ⟨v₂, hv₂, hmoves.trans (exec_statusStep hnum₁ hP id _ _ hexec v₁ v₂ hv₁ hv₂).moves⟩
    | tokens _ _ => exact ⟨v₁, hv₁, hmoves⟩
  exact hboth.2

end StatusLog

/-- In every run of audited calls the log of each vault accounts for its status and a
cancelled vault is empty; and however the run goes on, the status only moves from locked to
released or cancelled. -/
theorem status_audited {w₀ w w' : World} {ks ks' : List Event} {id : Nat} {v : Vault}
    (h₀ : Genesis w₀) (hrun : Run (Guarded Step (OnCalls Audited)) w₀ ks w)
    (hrest : Run (Guarded Step (OnCalls Audited)) w ks' w') (hv : w.state.vault id = some v) :
    AuditTrail w.state id v ∧
      ∃ v', w'.state.vault id = some v' ∧ AuditTrail w'.state id v' ∧ v.status.Moves v'.status := by
  obtain ⟨v', hv', hmoves⟩ := moves_of_run (numbered_of_run hrun.unguard h₀) hrest hv
  exact ⟨(trailed_of_run h₀ hrun).trail id v hv, v', hv',
    (trailed_of_run h₀ (hrun.trans hrest)).trail id v' hv', hmoves⟩

/-- The owner funds a vault and cancels it. -/
theorem status_audited_example : ∃ w w' : World, ∃ v v' : Vault,
    w.state.vault 1 = some v ∧ v.status = .locked ∧ w'.state.vault 1 = some v' ∧
      v'.status = .cancelled ∧ AuditTrail w'.state 1 v' ∧ v.status.Moves v'.status := by
  have hplay : (play (initialised ⟨8⟩ ⟨9⟩)
      [opensVault 1000, paysIn 500]).any (fun w =>
      (play w [(signedBy [⟨1⟩] 1, .vault (.cancelVault 1 ⟨1⟩))]).any fun w' =>
        (w.state.vault 1).any fun v => decide (v.status = .locked) &&
          (w'.state.vault 1).any fun v' => decide (v'.status = .cancelled)) = true := by
    decide +kernel
  obtain ⟨w, hw, hplay⟩ := (Option.any_eq_true _ _).mp hplay
  obtain ⟨w', hw', hchecks⟩ := (Option.any_eq_true _ _).mp hplay
  simp only [Bool.and_eq_true, Option.any_eq_true, decide_eq_true_eq] at hchecks
  obtain ⟨v, hv, hlocked, v', hv', hcancelled⟩ := hchecks
  obtain ⟨-, v'', hv'', htrail, hmoves⟩ := status_audited (genesis_initialised (by decide) (by decide))
    (guarded_of_play (P := Audited) (by simp [Audited]) hw)
    (guarded_of_play (P := Audited) (by simp [Audited]) hw') hv
  obtain rfl := Option.some.inj (hv'.symm.trans hv'')
  exact ⟨w, w', v, v', hv, hlocked, hv', hcancelled, htrail, hmoves⟩

/-- The owner merges vault 2 into vault 1: vault 2 is cancelled, and its log is empty. -/
theorem merged_vault_not_logged : ¬ ∀ (w₀ w : World) (ks : List Event) (id : Nat) (v : Vault),
    Genesis w₀ → Run Step w₀ ks w → w.state.vault id = some v → AuditTrail w.state id v := by
  have hplay : (play (initialised ⟨8⟩ ⟨9⟩)
      [opensVault 1000,
        (signedBy [⟨1⟩] 0, .vault (.createVault ⟨1⟩ ⟨3⟩ 1000 none)),
        (signedBy [⟨1⟩] 0, .vault (.mergeVaults 1 [2] ⟨1⟩))]).any (fun w =>
      (w.state.vault 2).any fun v => decide (v.status = .cancelled) &&
        decide (w.state.transitionLog 2 = [])) = true := by
    decide +kernel
  obtain ⟨w, hw, hchecks⟩ := (Option.any_eq_true _ _).mp hplay
  simp only [Bool.and_eq_true, Option.any_eq_true, decide_eq_true_eq] at hchecks
  obtain ⟨v, hv, hcancelled, hlog⟩ := hchecks
  intro h
  have htrail := h _ w _ 2 v (genesis_initialised (by decide) (by decide)) (run_of_play hw) hv
  have hlocked := htrail.empty.mp hlog
  simp [hcancelled] at hlocked

end Heirloom
