import Heirloom.Lib.Past
import Heirloom.Results.CheckInGuards
import Heirloom.Results.Deadlines
import Heirloom.Results.Forfeitures
import Heirloom.Results.ReversibleClaims
import Heirloom.Results.ScheduledWithdrawals
import Heirloom.Results.StatusLog
import Heirloom.Results.WithdrawalGuards

/-!
# Money on the owner's order

While its owner is alive, a vault loses money in many ways. Some calls ask for the owner; four
do not: they carry out a standing order, which anyone may start or which the heir that it names
starts.

* `exec_spends`: a call that the owner does not authorise lowers the balance of a locked vault
  that has not expired if and only if it carries out an order.
* `order_given`: whatever order stands was given by an owner of the past.
* `funds_on_orders`: both, in every run.
-/

namespace Heirloom

open Transaction Runs

/-! ## Orders -/

/-- What an owner can order to be paid later. -/
inductive Order
  /-- A withdrawal to the owner that others have to approve. -/
  | withdrawal (amount : Int)
  | escrow (amount : Int) (beneficiary : Address)
  | scheduled (timestamp : Nat) (amount : Int)
  /-- What an heir that declines gives up. -/
  | forfeiture (recipient : Address)

/-- The order stands in the storage of vault `id`, where a call that carries it out will find it. -/
def Order.Stands (id : Nat) (s : State) : Order → Prop
  | .withdrawal x => ∃ req, s.get (.withdrawalApprovalRequest id) = some req ∧ req.amount = x
  | .escrow x b => ∃ escrow, s.get (.withdrawalEscrow id) = some escrow ∧ escrow.amount = x ∧
      escrow.beneficiary = b
  | .scheduled at' x => ∃ schedule, s.get (.withdrawalSchedule id) = some schedule ∧
      ⟨at', x⟩ ∈ schedule ∧ 0 < x
  | .forfeiture a => ∃ config, s.get (.vestingForfeiture id) = some config ∧
      config.forfeitureRecipient = a

/-- Where an order of vault `id` is kept. -/
def Order.key (id : Nat) : Order → DataKey
  | .withdrawal _ => .withdrawalApprovalRequest id
  | .escrow _ _ => .withdrawalEscrow id
  | .scheduled _ _ => .withdrawalSchedule id
  | .forfeiture _ => .vestingForfeiture id

/-- The call by which the owner of vault `id` gives an order. -/
inductive Call.Orders (id : Nat) (owner : Address) : Order → Call → Prop
  | withdrawal (x : Int) (approvers : List Address) (n : Nat) : Call.Orders id owner
      (.withdrawal x) (.withdrawal (.requestWithdrawalApproval id owner x approvers n))
  | escrow (x : Int) (b : Address) : Call.Orders id owner (.escrow x b)
      (.withdrawal (.createWithdrawalEscrow id x b owner))
  | scheduled (at' : Nat) (x : Int) (schedule : List (Nat × Int)) : (at', x) ∈ schedule →
      Call.Orders id owner (.scheduled at' x) (.withdrawal (.setWithdrawalSchedule id schedule))
  | forfeiture (a : Address) : Call.Orders id owner (.forfeiture a)
      (.vesting (.setVestingForfeiture id owner a))

/-- The call carries out an order that stands, in the way the order provides for. -/
inductive CarriesOut (e : Env) (s : State) (id : Nat) : Call → Order → Prop
  /-- Enough approvers have approved the withdrawal; anyone may start it. -/
  | withdrawal (req : WithdrawalApprovalRequest) :
      s.get (.withdrawalApprovalRequest id) = some req →
      req.requiredApprovals ≤ req.approvals.length → 0 < req.amount →
      CarriesOut e s id (.withdrawal (.executeApprovedWithdrawal id)) (.withdrawal req.amount)
  | escrow (escrow : WithdrawalEscrow) (b : Address) :
      s.get (.withdrawalEscrow id) = some escrow → escrow.beneficiary = b →
      e.authorized b = true → 0 < escrow.amount →
      CarriesOut e s id (.withdrawal (.verifyWithdrawalEscrow id b)) (.escrow escrow.amount b)
  /-- The time of the payment has come; anyone may start it. -/
  | scheduled (schedule : List WithdrawalScheduleEntry) (entry : WithdrawalScheduleEntry) :
      s.get (.withdrawalSchedule id) = some schedule → entry ∈ schedule →
      entry.Due e.timestamp → CarriesOut e s id (.withdrawal (.executeScheduledWithdrawal id))
        (.scheduled entry.timestamp entry.amount)
  | forfeiture (heir recipient : Address) (amount : Int) : s.Forfeits id recipient amount →
      e.authorized heir = true →
      CarriesOut e s id (.heir (.declineBeneficiaryRole id heir)) (.forfeiture recipient)

section Orders

variable {e : Env} {s t : State} {id : Nat} {v w : Vault} {c : Call} {o : Order}
  {caller : Address}

theorem CarriesOut.stands (h : CarriesOut e s id c o) : o.Stands id s := by
  cases h with
  | withdrawal req hreq => exact ⟨req, hreq, rfl⟩
  | escrow escrow b hescrow hb => exact ⟨escrow, hescrow, rfl, hb⟩
  | scheduled schedule entry hschedule hmem hdue => exact ⟨schedule, hschedule, hmem, hdue.2⟩
  | forfeiture heir recipient amount hforfeits =>
      obtain ⟨config, _, hconfig, -, -, hrecipient, -⟩ := hforfeits
      exact ⟨config, hconfig, hrecipient⟩

/-! ## Where orders come from -/

/-- The owner of vault `id` gives the order with this call, which he has authorised. -/
def Order.Given (e : Env) (s : State) (id : Nat) (c : Call) (o : Order) : Prop :=
  ∃ v, s.vault id = some v ∧ e.authorized v.owner = true ∧ c.Orders id v.owner o

/-- The order is kept with the withdrawals of the vault. -/
def Order.Requested : Order → Prop
  | .withdrawal _ | .escrow _ _ => True
  | .scheduled _ _ | .forfeiture _ => False

theorem Order.stands_of_get (hkey : t.get (o.key id) = s.get (o.key id)) (h : o.Stands id t) :
    o.Stands id s := by
  cases o with
  | withdrawal x =>
      obtain ⟨req, hreq, hamount⟩ := h
      exact ⟨req, hkey.symm.trans hreq, hamount⟩
  | escrow x b =>
      obtain ⟨escrow, hescrow, hterms⟩ := h
      exact ⟨escrow, hkey.symm.trans hescrow, hterms⟩
  | scheduled at' x =>
      obtain ⟨schedule, hschedule, hterms⟩ := h
      exact ⟨schedule, hkey.symm.trans hschedule, hterms⟩
  | forfeiture a =>
      obtain ⟨config, hconfig, hrecipient⟩ := h
      exact ⟨config, hkey.symm.trans hconfig, hrecipient⟩

theorem Order.Requested.stands (ho : o.Requested)
    (hrequest : t.get (.withdrawalApprovalRequest id) = s.get (.withdrawalApprovalRequest id))
    (hescrow : t.get (.withdrawalEscrow id) = s.get (.withdrawalEscrow id))
    (h : o.Stands id t) : o.Stands id s := by
  cases o with
  | withdrawal x => exact Order.stands_of_get hrequest h
  | escrow x b => exact Order.stands_of_get hescrow h
  | scheduled _ _ | forfeiture _ => exact ho.elim

theorem execWithdrawal_order {x : WithdrawalCall} (ho : o.Requested)
    (hid : id ∈ x.footprint.vaults) (harea : .withdrawals ∈ x.footprint.areas) :
    wp (execWithdrawal x) (fun _ t => o.Stands id t →
      o.Stands id s ∨ o.Given e s id (.withdrawal x)) e s := by
  have hkept : wp (execWithdrawal x) (fun _ t =>
      t.get (.withdrawalApprovalRequest id) = s.get (.withdrawalApprovalRequest id) ∧
        t.get (.withdrawalEscrow id) = s.get (.withdrawalEscrow id)) e s →
      wp (execWithdrawal x) (fun _ t => o.Stands id t →
        o.Stands id s ∨ o.Given e s id (.withdrawal x)) e s :=
    fun hwp => Tx.wp_mono hwp fun _ _ hsame hstands => .inl (ho.stands hsame.1 hsame.2 hstands)
  cases x with
  | requestWithdrawalApproval i a y as n =>
      obtain rfl : id = i := by simpa [WithdrawalCall.footprint] using hid
      simp only [execWithdrawal, requestWithdrawalApproval, Tx.wp_bind, wp_requireAuth,
        wp_loadVault, wp_require, wp_timestamp, wp_u64, wp_storageSet]
      rintro hauth v hv rfl _ _ _ hstands
      cases o with
      | withdrawal z =>
          obtain ⟨req, hreq, rfl⟩ := hstands
          obtain rfl : _ = req := by simpa using hreq
          exact .inr ⟨v, hv, hauth, .withdrawal y as n⟩
      | escrow z b => exact .inl (by simpa [Order.Stands] using hstands)
      | scheduled _ _ | forfeiture _ => exact ho.elim
  | approveWithdrawal i a =>
      obtain rfl : id = i := by simpa [WithdrawalCall.footprint] using hid
      simp only [execWithdrawal, approveWithdrawal, Tx.wp_bind, wp_requireAuth, wp_storageGet,
        Tx.wp_fromSome, wp_require, wp_timestamp, wp_storageSet]
      rintro _ _ _ _ old hold _ _ hstands
      cases o with
      | withdrawal z =>
          obtain ⟨req, hreq, rfl⟩ := hstands
          obtain rfl : _ = req := by simpa using hreq
          exact .inl ⟨old, hold, rfl⟩
      | escrow z b => exact .inl (by simpa [Order.Stands] using hstands)
      | scheduled _ _ | forfeiture _ => exact ho.elim
  | executeApprovedWithdrawal i =>
      obtain rfl : id = i := by simpa [WithdrawalCall.footprint] using hid
      simp only [execWithdrawal, executeApprovedWithdrawal, Tx.wp_bind, wp_storageGet,
        Tx.wp_fromSome, wp_require, wp_loadVault, wp_transfer, wp_i128, wp_saveVault,
        wp_storageRemove]
      rintro _ _ _ _ _ _ _ _ hstands
      cases o with
      | withdrawal z => simp [Order.Stands] at hstands
      | escrow z b => exact .inl (by simpa [Order.Stands] using hstands)
      | scheduled _ _ | forfeiture _ => exact ho.elim
  | createWithdrawalEscrow i y b a =>
      obtain rfl : id = i := by simpa [WithdrawalCall.footprint] using hid
      simp only [execWithdrawal, createWithdrawalEscrow, Tx.wp_bind, wp_require, wp_requireAuth,
        wp_loadVault, wp_timestamp, wp_storageSet]
      rintro _ hauth v hv rfl _ hstands
      cases o with
      | withdrawal z => exact .inl (by simpa [Order.Stands] using hstands)
      | escrow z b' =>
          obtain ⟨escrow, hescrow, rfl, rfl⟩ := hstands
          obtain rfl : _ = escrow := by simpa using hescrow
          exact .inr ⟨v, hv, hauth, .escrow y b⟩
      | scheduled _ _ | forfeiture _ => exact ho.elim
  | verifyWithdrawalEscrow i a =>
      obtain rfl : id = i := by simpa [WithdrawalCall.footprint] using hid
      simp only [execWithdrawal, verifyWithdrawalEscrow, Tx.wp_bind, wp_requireAuth, wp_loadVault,
        wp_storageGet, Tx.wp_fromSome, wp_require, wp_transfer, wp_i128, wp_saveVault,
        wp_storageRemove]
      rintro _ _ _ _ _ _ _ _ _ hstands
      cases o with
      | withdrawal z => exact .inl (by simpa [Order.Stands] using hstands)
      | escrow z b => simp [Order.Stands] at hstands
      | scheduled _ _ | forfeiture _ => exact ho.elim
  | withdraw =>
      refine hkept ?_
      simp [execWithdrawal, withdraw]
      intros
      refine Tx.wp_mono checkWithdrawalLimits_frame ?_
      rintro _ _ (rfl | ⟨tracker, rfl⟩) <;> intros <;> simp
  | setWithdrawalLimits => exact hkept (by simp [execWithdrawal, setWithdrawalLimits])
  | addWhitelistAddress => exact hkept (by simp [execWithdrawal, addWhitelistAddress])
  | removeWhitelistAddress => exact hkept (by simp [execWithdrawal, removeWhitelistAddress])
  | partialLiquidate => exact hkept (by simp [execWithdrawal, partialLiquidate])
  | rollbackWithdrawal => exact hkept (by simp [execWithdrawal, rollbackWithdrawal])
  | reverseWithdrawal => exact hkept (by simp [execWithdrawal, reverseWithdrawal])
  | batchWithdraw | setWithdrawalSchedule | executeScheduledWithdrawal =>
      simp [WithdrawalCall.footprint] at harea

theorem setWithdrawalSchedule_order {schedule : List (Nat × Int)} {at' : Nat} {x : Int} :
    wp (setWithdrawalSchedule id schedule) (fun _ t => (Order.scheduled at' x).Stands id t →
      Order.Given e s id (.withdrawal (.setWithdrawalSchedule id schedule)) (.scheduled at' x))
      e s := by
  simp only [setWithdrawalSchedule, Tx.wp_bind, wp_assertNotPaused, wp_loadVault, wp_requireAuth,
    wp_require, wp_storageSet]
  rintro _ v hv hauth _ ⟨stored, hstored, hmem, -⟩
  obtain rfl : _ = stored := by simpa using hstored
  obtain ⟨item, hitem, heq⟩ := List.mem_map.mp hmem
  cases heq
  exact ⟨v, hv, hauth, .scheduled _ _ schedule hitem⟩

/-- An execution strikes entries of the schedule and adds none. -/
theorem executeScheduledWithdrawal_order {at' : Nat} {x : Int} :
    wp (executeScheduledWithdrawal id) (fun _ t => (Order.scheduled at' x).Stands id t →
      (Order.scheduled at' x).Stands id s) e s := by
  refine Tx.wp_mono executeScheduledWithdrawal_pays ?_
  rintro _ t ⟨v, -, -, hstruck, entry, hentry, -⟩ ⟨stored, hstored, hmem, hpos⟩
  have hafter : t.schedule id = stored := by simp [State.schedule, hstored]
  rw [hafter] at hstruck
  rw [hstruck] at hmem
  obtain ⟨old, hold, heq⟩ := List.mem_map.mp hmem
  unfold WithdrawalScheduleEntry.struck at heq
  split at heq
  · -- an entry that is struck has no amount left
    cases heq
    exact absurd hpos (lt_irrefl 0)
  · subst heq
    unfold State.schedule at hold
    cases hschedule : s.get (.withdrawalSchedule id) with
    | none => simp [hschedule] at hold
    | some schedule => exact ⟨schedule, hschedule, by simpa [hschedule] using hold, hpos⟩

theorem declineBeneficiaryRole_order {a : Address} :
    wp (declineBeneficiaryRole id caller) (fun _ t => (Order.forfeiture a).Stands id t →
      (Order.forfeiture a).Stands id s) e s := by
  refine declineBeneficiaryRole_rule fun v t _ hframe _ => ?_
  have hsame : t.get (.vestingForfeiture id) = s.get (.vestingForfeiture id) :=
    hframe.get_of_area (by simp)
  simp only [forfeitUnvested, Tx.wp_bind, wp_storageGet, Tx.wp_ifSome, Tx.wp_onlyIf, wp_divI,
    wp_i128, wp_transfer, wp_storageSet, wp_saveVault]
  have hkept : (Order.forfeiture a).Stands id t → (Order.forfeiture a).Stands id s := by
    rintro ⟨config, hconfig, hrecipient⟩
    exact ⟨config, hsame ▸ hconfig, hrecipient⟩
  refine ⟨fun config hconfig => ⟨fun _ => ⟨fun _ _ _ _ _ => ⟨?_, fun _ => hkept⟩,
    fun _ => hkept⟩, fun _ => hkept⟩, fun _ => hkept⟩
  rintro _ _ _ ⟨stored, hstored, hrecipient⟩
  obtain rfl : _ = stored := by simpa using hstored
  exact ⟨config, hsame ▸ hconfig, hrecipient⟩

theorem setVestingForfeiture_order {r a : Address} :
    wp (setVestingForfeiture id caller r) (fun _ t => (Order.forfeiture a).Stands id t →
      Order.Given e s id (.vesting (.setVestingForfeiture id caller r)) (.forfeiture a)) e s := by
  simp only [setVestingForfeiture, Tx.wp_bind, wp_assertNotPaused, wp_requireAuth, wp_loadVault,
    wp_require, wp_storageSet]
  rintro _ hauth v hv rfl ⟨stored, hstored, rfl⟩
  obtain rfl : _ = stored := by simpa using hstored
  exact ⟨v, hv, hauth, .forfeiture r⟩

/-- Whatever order stands after a call stood before it, or its owner gives it with the call. -/
theorem exec_order (hnum : s.Numbered) (hexec : exec c e s = .ok ((), t)) (h : o.Stands id t) :
    o.Stands id s ∨ o.Given e s id c := by
  have hframe : Frame (c.footprint s) s t := exec_frame c hnum _ _ hexec
  by_cases hwrites : (o.key id).area ∈ (c.footprint s).areas ∧ id ∈ (c.footprint s).vaults
  swap
  · -- the call does not write where the order is kept
    refine .inl (Order.stands_of_get ?_ h)
    rcases not_and_or.mp hwrites with harea | hid
    · refine hframe.get_of_area ?_
      cases o <;> simpa [Order.key] using harea
    · refine hframe.get_of_vault ?_ hid
      cases o <;> rfl
  obtain ⟨harea, hid⟩ := hwrites
  cases o with
  | withdrawal x =>
      obtain ⟨x, rfl⟩ := Call.withdrawals_writer harea
      exact execWithdrawal_order (by trivial) hid harea _ _ hexec h
  | escrow x b =>
      obtain ⟨x, rfl⟩ := Call.withdrawals_writer harea
      exact execWithdrawal_order (by trivial) hid harea _ _ hexec h
  | scheduled at' x =>
      rcases Call.payouts_writer harea with ⟨i, l, rfl⟩ | ⟨i, rfl⟩
      · obtain rfl : id = i := by simpa [Call.footprint, WithdrawalCall.footprint] using hid
        exact .inr (setWithdrawalSchedule_order _ _ hexec h)
      · obtain rfl : id = i := by simpa [Call.footprint, WithdrawalCall.footprint] using hid
        exact .inl (executeScheduledWithdrawal_order _ _ hexec h)
  | forfeiture a =>
      rcases Call.forfeiture_writer harea with ⟨i, b, rfl⟩ | ⟨i, b, r, rfl⟩
      · obtain rfl : id = i := by simpa [Call.footprint, HeirCall.footprint] using hid
        exact .inl (declineBeneficiaryRole_order _ _ hexec h)
      · obtain rfl : id = i := by simpa [Call.footprint, VestingCall.footprint] using hid
        exact .inr (setVestingForfeiture_order _ _ hexec h)

/-- The event is a call by which the owner of vault `id` gives the order. -/
def Gives (id : Nat) (o : Order) (w : World) (k : Event) : Prop :=
  ∃ e c, k = .call e c ∧ o.Given e w.state id c

/-- Whatever order stands was given by an owner of the past. -/
theorem order_given {w₀ w : World} {ks : List Event} (h₀ : Genesis w₀) (hrun : Run Step w₀ ks w)
    (h : o.Stands id w.state) : Happened Step w₀ (Gives id o) ks := by
  refine hrun.provenance (I := fun w o => o.Stands id w.state) (B := Gives id) ?_ ?_ h
  · intro o hstands
    have hnone : w₀.state.get (o.key id) = none := h₀.get (by cases o <;> simp [Order.key])
    cases o with
    | withdrawal _ | escrow _ _ | scheduled _ _ | forfeiture _ =>
        obtain ⟨_, hsome, -⟩ := hstands
        cases hnone.symm.trans hsome
  · intro ks w k w' o hrun hstep hstands
    cases hstep with
    | tokens _ _ => exact .inl hstands
    | call _ hexec =>
        exact (exec_order (numbered_of_run hrun h₀) hexec hstands).imp_right
          fun hgiven => ⟨_, _, rfl, hgiven⟩

/-! ## What a living vault cannot lose -/

/-- Only a vault that is not locked any more has a claim with a reversal window. -/
def State.ClaimsOpened (s : State) : Prop :=
  ∀ id, (s.get (.vestingPendingClaim id 0)).isSome → ∃ v, s.vault id = some v ∧ v.status ≠ .locked

theorem claimBeneficiaryVesting_released {heir : Address} :
    wp (claimBeneficiaryVesting id heir)
      (fun _ _ => ∃ v, s.vault id = some v ∧ v.status = .released) e s := by
  unfold claimBeneficiaryVesting
  rw [Tx.wp_bind, wp_loadVault]
  intro v hv
  rw [Tx.wp_bind, wp_require]
  intro hreleased
  exact fun _ _ _ => ⟨v, hv, hreleased⟩

theorem clawbackUnvested_released :
    wp (clawbackUnvested id caller)
      (fun _ _ => ∃ v, s.vault id = some v ∧ v.status = .released) e s := by
  unfold clawbackUnvested
  rw [Tx.wp_bind, wp_assertNotPaused]
  intro _
  rw [Tx.wp_bind, wp_requireAuth]
  intro _
  rw [Tx.wp_bind, wp_loadVault]
  intro v hv
  rw [Tx.wp_bind, wp_require]
  intro _
  rw [Tx.wp_bind, wp_require]
  intro hreleased
  exact fun _ _ _ => ⟨v, hv, hreleased⟩

theorem execVesting_claimOpened {x : VestingCall} (hid : id ∈ x.footprint.vaults)
    (harea : .vesting ∈ x.footprint.areas) :
    wp (execVesting x) (fun _ t => (t.get (.vestingPendingClaim id 0)).isSome →
      (s.get (.vestingPendingClaim id 0)).isSome ∨
        ∃ v, s.vault id = some v ∧ v.status = .released) e s := by
  have hkept : wp (execVesting x) (fun _ t => t.get (.vestingPendingClaim id 0) =
      s.get (.vestingPendingClaim id 0)) e s →
      wp (execVesting x) (fun _ t => (t.get (.vestingPendingClaim id 0)).isSome →
        (s.get (.vestingPendingClaim id 0)).isSome ∨
          ∃ v, s.vault id = some v ∧ v.status = .released) e s :=
    fun hwp => Tx.wp_mono hwp fun _ _ hsame hsome => .inl (hsame ▸ hsome)
  cases x with
  | initiateVestingClaim i n =>
      obtain rfl : id = i := by simpa [VestingCall.footprint] using hid
      simp only [execVesting, Tx.wp_bind, Tx.wp_pure]
      refine Tx.wp_mono initiateVestingClaim_spec ?_
      rintro _ _ ⟨v, x, h⟩ _
      exact .inr ⟨v, h.vault, h.released⟩
  | claimStaggeredVesting i a =>
      obtain rfl : id = i := by simpa [VestingCall.footprint] using hid
      simp only [execVesting, Tx.wp_bind, Tx.wp_pure]
      refine Tx.wp_mono claimStaggeredVesting_spec ?_
      rintro _ _ ⟨v, _, htx, hreleased, -⟩ _
      exact .inr ⟨v, htx.before, hreleased⟩
  | claimBeneficiaryVesting i a =>
      obtain rfl : id = i := by simpa [VestingCall.footprint] using hid
      simp only [execVesting, Tx.wp_bind, Tx.wp_pure]
      refine Tx.wp_mono claimBeneficiaryVesting_released ?_
      exact fun _ _ hreleased _ => .inr hreleased
  | reverseVestingClaim i a =>
      obtain rfl : id = i := by simpa [VestingCall.footprint] using hid
      simp only [execVesting, reverseVestingClaim, Tx.wp_bind, wp_requireAuth, wp_loadVault,
        wp_require, wp_storageGet, Tx.wp_fromSome, wp_timestamp, Tx.wp_ifSome, wp_storageSet,
        wp_storageRemove]
      intro _ _ _ _ pending hpending _
      exact ⟨fun _ _ _ => .inl (by simp [hpending]), fun _ _ => .inl (by simp [hpending])⟩
  | finalizeVestingClaim i =>
      obtain rfl : id = i := by simpa [VestingCall.footprint] using hid
      simp only [execVesting, Tx.wp_bind, Tx.wp_pure]
      refine Tx.wp_mono finalizeVestingClaim_spec ?_
      rintro _ _ ⟨_, pending, -, hpending, -⟩ _
      exact .inl (by simp [hpending])
  | setVestingCatchup => exact hkept (by simp [execVesting, setVestingCatchup])
  | setVestingBonus => exact hkept (by simp [execVesting, setVestingBonus])
  | setVestingAcceleration => exact hkept (by simp [execVesting, setVestingAcceleration])
  | accelerateVesting => exact hkept (by simp [execVesting, accelerateVesting])
  | setVestingStagger => exact hkept (by simp [execVesting, setVestingStagger])
  | setBeneficiaryVesting => exact hkept (by simp [execVesting, setBeneficiaryVesting])
  | setYieldDistribution => exact hkept (by simp [execVesting, setYieldDistribution])
  | distributeYield => exact hkept (by simp [execVesting, distributeYield])
  | _ => simp [VestingCall.footprint] at harea

theorem Call.vesting_writer (h : .vesting ∈ (c.footprint s).areas) : ∃ x, c = .vesting x := by
  cases c with
  | vesting x => exact ⟨x, rfl⟩
  | _ => simpa [Call.areas] using Call.mem_areas h

theorem exec_claimsOpened (hnum : s.Numbered) (h : s.ClaimsOpened) :
    wp (exec c) (fun _ t => t.ClaimsOpened) e s := by
  intro _ t hexec id hsome
  have hframe : Frame (c.footprint s) s t := exec_frame c hnum _ _ hexec
  have hbefore : (s.get (.vestingPendingClaim id 0)).isSome ∨
      ∃ v, s.vault id = some v ∧ v.status = .released := by
    by_cases hwrites : .vesting ∈ (c.footprint s).areas ∧ id ∈ (c.footprint s).vaults
    · obtain ⟨x, rfl⟩ := Call.vesting_writer hwrites.1
      exact execVesting_claimOpened hwrites.2 hwrites.1 _ _ hexec hsome
    · rcases not_and_or.mp hwrites with harea | hid
      · exact .inl (hframe.get_of_area (k := .vestingPendingClaim id 0) (by simpa using harea) ▸
          hsome)
      · exact .inl (hframe.get_of_vault (k := .vestingPendingClaim id 0) rfl hid ▸ hsome)
  have hopened : ∃ v, s.vault id = some v ∧ v.status ≠ .locked := by
    rcases hbefore with hsome | ⟨v, hv, hreleased⟩
    · exact h id hsome
    · exact ⟨v, hv, by simp [hreleased]⟩
  -- no vault is locked again
  obtain ⟨v, hv, hopen⟩ := hopened
  obtain ⟨w, hw, hagree⟩ := hframe.kept id v hv
  refine ⟨w, hw, ?_⟩
  rcases hagree.status with hsame | ⟨-, hne⟩
  · exact hsame ▸ hopen
  · exact hne

/-- What holds in every reachable state and keeps calls from taking anything from a vault: there
are no penalties, nothing is staked, and pending claims are those of released vaults. -/
structure State.Sealed (s : State) : Prop where
  penalty : ∀ i v, s.vault i = some v → v.inactivityPenaltyBps = none
  staked : s.NothingStaked
  claims : s.ClaimsOpened

theorem sealed_of_reachable {w : World} (h : Reachable w) : w.state.Sealed where
  penalty := penalty_of_reachable h
  staked := by
    refine reachable_invariant h ?_ (fun hnum hI => exec_nothingStaked hnum hI) fun _ hI => hI
    intro w hw i x hx
    rw [hw.get (by simp)] at hx
    cases hx
  claims := by
    refine reachable_invariant h ?_ (fun hnum hI => exec_claimsOpened hnum hI) fun _ hI => hI
    intro w hw i hi
    rw [hw.get (by simp)] at hi
    cases hi

/-! ## Calls that take nothing -/

/-- The call may carry out an order of vault `id`. -/
def Call.OnOrders (id : Nat) : Call → Prop
  | .withdrawal (.executeApprovedWithdrawal i) | .withdrawal (.verifyWithdrawalEscrow i _)
  | .withdrawal (.executeScheduledWithdrawal i) | .heir (.declineBeneficiaryRole i _) => i = id
  | _ => False

theorem CarriesOut.onOrders (h : CarriesOut e s id c o) : c.OnOrders id := by
  cases h <;> exact Eq.refl id

/-- The vault is still there, and has at least the balance that it had before. -/
def KeepsBalance (id : Nat) (v : Vault) (t : State) : Prop :=
  ∃ v', t.vault id = some v' ∧ v.balance ≤ v'.balance

theorem Transacts.keepsBalance {log : Log} (h : Transacts id v w log s t)
    (hle : v.balance ≤ w.balance) : KeepsBalance id v t :=
  ⟨w, (h.after id).trans (if_pos rfl), hle⟩

/-- A deposit of a batch credits the record that the checks have read. -/
theorem KeepsBalance.creditBatch {ds : List ValidatedDeposit} (hv : s.vault id = some v)
    (hds : ∀ d ∈ ds, s.vault d.vaultId = some d.vault ∧ 0 < d.amount)
    (h : KeepsBalance id v t) : KeepsBalance id v (ds.foldl State.creditBatch t) := by
  induction ds generalizing t with
  | nil => exact h
  | cons d ds ih =>
      obtain ⟨⟨hd, hpos⟩, hrest⟩ := List.forall_mem_cons.mp hds
      refine ih hrest ?_
      by_cases hid : d.vaultId = id
      · subst hid
        obtain rfl := Option.some.inj (hv.symm.trans hd)
        refine ⟨_, State.get_put_self, ?_⟩
        show d.vault.balance ≤ d.vault.balance + d.amount
        omega
      · obtain ⟨v', hv', hle⟩ := h
        exact ⟨v', by simpa [State.creditBatch, Ne.symm hid] using hv', hle⟩

theorem mergeVaults_owner {target : Nat} {sources : List Nat} :
    wp (mergeVaults target sources caller) (fun _ _ => e.authorized caller = true ∧
      ∀ i ∈ target :: sources, ∃ v, s.vault i = some v ∧ caller = v.owner) e s := by
  refine mergeVaults_rule (I := fun _ _ => True) (fun _ _ => trivial)
    (fun _ _ _ _ _ _ _ _ _ => trivial) ?_
  intro v _ _ hv _ hsources hcaller hauth _
  refine ⟨hauth, List.forall_mem_cons.mpr ⟨⟨v, hv, hcaller⟩, fun i hi => ?_⟩⟩
  obtain ⟨-, w, hw, howner, -⟩ := hsources i hi
  exact ⟨w, hw, hcaller.trans howner.symm⟩

theorem execVault_keepsBalance {x : VaultCall} (hid : id ∈ (x.footprint s).vaults)
    (hparts : .balance ∈ (x.footprint s).parts) (hv : s.vault id = some v)
    (hout : e.authorized v.owner = false) :
    wp (execVault x) (fun _ t => KeepsBalance id v t) e s := by
  cases x with
  | deposit i a y =>
      obtain rfl : id = i := by simpa [VaultCall.footprint] using hid
      refine Tx.wp_mono deposit_spec ?_
      rintro _ t ⟨v', htx, hpos, -⟩
      obtain rfl := Option.some.inj (hv.symm.trans htx.before)
      refine htx.keepsBalance ?_
      show v.balance ≤ v.balance + y
      omega
  | batchDeposit a ds =>
      refine Tx.wp_mono batchDeposit_spec ?_
      rintro _ t (⟨rfl, -⟩ | ⟨token, ds, hds, -, -, -, rfl⟩)
      · exact ⟨v, hv, le_rfl⟩
      · refine KeepsBalance.creditBatch hv (fun d hd => ?_) ⟨v, hv, le_rfl⟩
        exact ⟨(hds.read d hd).1, (hds.read d hd).2.1⟩
  | cancelVault i a =>
      obtain rfl : id = i := by simpa [VaultCall.footprint] using hid
      refine Tx.wp_mono cancelVault_spec ?_
      rintro _ t ⟨v', htx, -, rfl, hauth, -⟩
      obtain rfl := Option.some.inj (hv.symm.trans htx.before)
      cases hauth.symm.trans hout
  | mergeVaults i is a =>
      refine Tx.wp_mono mergeVaults_owner ?_
      rintro _ t ⟨hauth, howners⟩
      obtain ⟨v', hv', rfl⟩ := howners id hid
      obtain rfl := Option.some.inj (hv.symm.trans hv')
      cases hauth.symm.trans hout
  | _ => simp [VaultCall.footprint, State.creation] at hparts

theorem OwnerPayment.elim {P : Prop} {amount : Int} (h : OwnerPayment e v caller amount)
    (hout : e.authorized v.owner = false) : P := by
  have hauth := h.authorized
  rw [h.owner, hout] at hauth
  cases hauth

theorem execWithdrawal_keepsBalance {x : WithdrawalCall} (hid : id ∈ x.footprint.vaults)
    (hparts : .balance ∈ x.footprint.parts) (hv : s.vault id = some v)
    (hout : e.authorized v.owner = false) (hx : ¬ (Call.withdrawal x).OnOrders id) :
    wp (execWithdrawal x) (fun _ t => KeepsBalance id v t) e s := by
  cases x with
  | withdraw i a y =>
      obtain rfl : id = i := by simpa [WithdrawalCall.footprint] using hid
      refine Tx.wp_mono withdraw_spec ?_
      rintro _ t ⟨v', htx, hpays, -⟩
      obtain rfl := Option.some.inj (hv.symm.trans htx.before)
      exact hpays.elim hout
  | partialLiquidate i y p =>
      obtain rfl : id = i := by simpa [WithdrawalCall.footprint] using hid
      refine Tx.wp_mono partialLiquidate_spec ?_
      rintro _ t ⟨v', htx, hpays, -⟩
      obtain rfl := Option.some.inj (hv.symm.trans htx.before)
      exact hpays.elim hout
  | batchWithdraw is ys a =>
      refine batchWithdraw_rule (fun hitems hauth item hitem v' t u hI htx => ?_) ⟨v, hv, le_rfl⟩
      by_cases hitemId : item.1 = id
      · obtain ⟨w, hw, -, -, -, rfl⟩ := hitems item hitem
        rw [hitemId] at hw
        obtain rfl := Option.some.inj (hv.symm.trans hw)
        cases hauth.symm.trans hout
      · obtain ⟨w, hw, hle⟩ := hI
        exact ⟨w, ((htx.after id).trans (if_neg (Ne.symm hitemId))).trans hw, hle⟩
  | rollbackWithdrawal i y a =>
      obtain rfl : id = i := by simpa [WithdrawalCall.footprint] using hid
      refine Tx.wp_mono rollbackWithdrawal_spec ?_
      rintro _ t ⟨v', htx, hpos⟩
      obtain rfl := Option.some.inj (hv.symm.trans htx.before)
      refine htx.keepsBalance ?_
      show v.balance ≤ v.balance + y
      omega
  | reverseWithdrawal i a n =>
      obtain rfl : id = i := by simpa [WithdrawalCall.footprint] using hid
      simp [execWithdrawal, reverseWithdrawal]
      rintro _ hauth v' hv' rfl
      obtain rfl := Option.some.inj (hv.symm.trans hv')
      cases hauth.symm.trans hout
  | executeApprovedWithdrawal i | verifyWithdrawalEscrow i a | executeScheduledWithdrawal i =>
      obtain rfl : id = i := by simpa [WithdrawalCall.footprint] using hid
      exact absurd (Eq.refl id) hx
  | _ => simp [WithdrawalCall.footprint] at hparts

theorem execCheckIn_keepsBalance {x : CheckInCall} (hid : id ∈ (x.footprint s).vaults)
    (hparts : .balance ∈ (x.footprint s).parts) (hv : s.vault id = some v)
    (hnone : v.inactivityPenaltyBps = none) :
    wp (execCheckIn x) (fun _ t => KeepsBalance id v t) e s := by
  have hcheckIn : ∀ a hash n, wp (checkIn id a hash n) (fun _ t => KeepsBalance id v t) e s := by
    intro a hash n
    refine Tx.wp_mono checkIn_checks ?_
    rintro _ t ⟨v', hv', -, -, hkept, -⟩
    obtain rfl := Option.some.inj (hv.symm.trans hv')
    obtain ⟨w, hw, hsame⟩ := hkept hnone
    exact ⟨w, hw, hsame.ge⟩
  cases x with
  | checkIn i a hash n =>
      obtain rfl : id = i := by simpa [CheckInCall.footprint] using hid
      exact hcheckIn _ _ _
  | checkInWithGeo i a hash =>
      obtain rfl : id = i := by simpa [CheckInCall.footprint] using hid
      exact hcheckIn _ _ _
  | _ => simp [CheckInCall.footprint] at hparts

/-! The releases ask for the deadline to have passed. -/

theorem assertReleasable_expired :
    wp (assertReleasable id)
      (fun _ _ => ∃ v, s.vault id = some v ∧ isExpired id e s = .ok (true, s)) e s := by
  unfold assertReleasable
  rw [Tx.wp_bind, wp_assertNotPaused]
  intro _
  rw [Tx.wp_bind]
  refine Tx.wp_mono tryRestoreArchivedVault_spec fun _ t hcleared => ?_
  rw [Tx.wp_bind, wp_loadVault]
  intro v hv
  rw [Tx.wp_bind, wp_require]
  intro _
  rw [Tx.wp_bind, wp_isExpired]
  intro b hb
  rw [Tx.wp_bind, wp_require]
  rintro rfl
  have hvs : s.vault id = some v := (hcleared.vault id).symm.trans hv
  exact fun _ _ _ => ⟨v, hvs, (hcleared.isExpired_iff hvs).mp hb⟩

theorem triggerReleaseInternal_expired {mode : ReleaseTrigger} :
    wp (triggerReleaseInternal id mode) (fun _ _ => isExpired id e s = .ok (true, s)) e s := by
  unfold triggerReleaseInternal
  rw [Tx.wp_bind]
  refine Tx.wp_mono assertReleaseRequested_spec ?_
  rintro _ t ⟨hcleared, -⟩
  rw [Tx.wp_bind]
  refine Tx.wp_mono assertReleasable_expired ?_
  rintro _ _ ⟨v, hv, hexpired⟩
  have hvs : s.vault id = some v := (hcleared.vault id).symm.trans hv
  exact fun _ _ _ => (hcleared.isExpired_iff hvs).mp hexpired

theorem execRelease_keepsBalance {x : ReleaseCall} (hid : id ∈ x.footprint.vaults)
    (hv : s.vault id = some v) (hliving : isExpired id e s ≠ .ok (true, s))
    (hout : e.authorized v.owner = false) (hexec : execRelease x e s = .ok ((), t)) :
    KeepsBalance id v t := by
  cases x with
  | triggerRelease i =>
      obtain rfl : id = i := by simpa [ReleaseCall.footprint, releaseFootprint] using hid
      exact absurd (triggerReleaseInternal_expired _ _ hexec) hliving
  | triggerReleaseManual i =>
      obtain rfl : id = i := by simpa [ReleaseCall.footprint, releaseFootprint] using hid
      exact absurd (triggerReleaseInternal_expired _ _ hexec) hliving
  | panicRelease i a =>
      obtain rfl : id = i := by simpa [ReleaseCall.footprint, releaseFootprint] using hid
      obtain ⟨mode, hrelease⟩ := execRelease_internal (c := .panicRelease id a) rfl hexec
      exact absurd (triggerReleaseInternal_expired _ _ hrelease) hliving
  | partialRelease i y =>
      obtain rfl : id = i := by simpa [ReleaseCall.footprint] using hid
      have hauth : wp (partialRelease id y)
          (fun _ _ => ∃ v, s.vault id = some v ∧ e.authorized v.owner = true) e s := by
        unfold partialRelease
        rw [Tx.wp_bind, wp_assertNotPaused]
        intro _
        rw [Tx.wp_bind, wp_require]
        intro _
        rw [Tx.wp_bind, wp_loadVault]
        intro v hv
        rw [Tx.wp_bind, wp_requireAuth]
        intro hauth
        exact fun _ _ _ => ⟨v, hv, hauth⟩
      obtain ⟨v', hv', hauth⟩ := hauth _ _ hexec
      obtain rfl := Option.some.inj (hv.symm.trans hv')
      cases hauth.symm.trans hout
  | revealBeneficiary i p a =>
      obtain rfl : id = i := by simpa [ReleaseCall.footprint] using hid
      have hexpired : wp (revealBeneficiary id p a)
          (fun _ _ => isExpired id e s = .ok (true, s)) e s := by
        simp [revealBeneficiary]
        intro _ _ _ v _ _ hexpired _ _ _
        exact hexpired
      exact absurd (hexpired _ _ hexec) hliving

theorem execVesting_keepsBalance {x : VestingCall} (hs : s.Sealed)
    (hid : id ∈ x.footprint.vaults) (hparts : .balance ∈ x.footprint.parts)
    (hv : s.vault id = some v) (hlocked : v.status = .locked)
    (hout : e.authorized v.owner = false) :
    wp (execVesting x) (fun _ t => KeepsBalance id v t) e s := by
  have hopened : ∀ {u : State}, (∃ w, s.vault id = some w ∧ w.status = .released) →
      KeepsBalance id v u := by
    rintro u ⟨w, hw, hreleased⟩
    obtain rfl := Option.some.inj (hv.symm.trans hw)
    cases hlocked.symm.trans hreleased
  cases x with
  | cancelVestingSchedule i n a =>
      obtain rfl : id = i := by simpa [VestingCall.footprint] using hid
      refine Tx.wp_mono cancelVestingSchedule_spec ?_
      rintro _ t ⟨v', _, _, htx, rfl, hauth, -⟩
      obtain rfl := Option.some.inj (hv.symm.trans htx.before)
      cases hauth.symm.trans hout
  | claimVestedInstallment i =>
      obtain rfl : id = i := by simpa [VestingCall.footprint] using hid
      simp only [execVesting, Tx.wp_bind, Tx.wp_pure]
      refine Tx.wp_mono claimVestedInstallment_spec ?_
      rintro _ _ ⟨w, h⟩
      exact hopened ⟨w, h.transacts.before, h.released⟩
  | claimCatchupVesting i =>
      obtain rfl : id = i := by simpa [VestingCall.footprint] using hid
      simp only [execVesting, Tx.wp_bind, Tx.wp_pure]
      refine Tx.wp_mono claimCatchupVesting_spec ?_
      rintro _ _ ⟨w, h⟩
      exact hopened ⟨w, h.transacts.before, h.released⟩
  | claimWithBonus i =>
      obtain rfl : id = i := by simpa [VestingCall.footprint] using hid
      simp only [execVesting, Tx.wp_bind, Tx.wp_pure]
      refine Tx.wp_mono claimWithBonus_spec ?_
      rintro _ _ ⟨w, h⟩
      exact hopened ⟨w, h.transacts.before, h.released⟩
  | claimMilestoneInstallments i =>
      obtain rfl : id = i := by simpa [VestingCall.footprint] using hid
      simp only [execVesting, Tx.wp_bind, Tx.wp_pure]
      refine Tx.wp_mono claimMilestoneInstallments_spec ?_
      rintro _ _ ⟨w, _, h, -⟩
      exact hopened ⟨w, h.transacts.before, h.released⟩
  | claimStaggeredVesting i a =>
      obtain rfl : id = i := by simpa [VestingCall.footprint] using hid
      simp only [execVesting, Tx.wp_bind, Tx.wp_pure]
      refine Tx.wp_mono claimStaggeredVesting_spec ?_
      rintro _ _ ⟨w, _, htx, hreleased, -⟩
      exact hopened ⟨w, htx.before, hreleased⟩
  | claimBeneficiaryVesting i a =>
      obtain rfl : id = i := by simpa [VestingCall.footprint] using hid
      simp only [execVesting, Tx.wp_bind, Tx.wp_pure]
      exact Tx.wp_mono claimBeneficiaryVesting_released fun _ _ => hopened
  | clawbackUnvested i a =>
      obtain rfl : id = i := by simpa [VestingCall.footprint] using hid
      simp only [execVesting, Tx.wp_bind, Tx.wp_pure]
      exact Tx.wp_mono clawbackUnvested_released fun _ _ => hopened
  | finalizeVestingClaim i =>
      obtain rfl : id = i := by simpa [VestingCall.footprint] using hid
      simp only [execVesting, Tx.wp_bind, Tx.wp_pure]
      refine Tx.wp_mono finalizeVestingClaim_spec ?_
      rintro _ _ ⟨_, pending, -, hpending, -⟩
      obtain ⟨w, hw, hopen⟩ := hs.claims id (by simp [hpending])
      obtain rfl := Option.some.inj (hv.symm.trans hw)
      exact absurd hlocked hopen
  | distributeYield i =>
      refine Tx.wp_mono (distributeYield_spec fun x hx => hs.staked _ x hx) ?_
      rintro _ _ rfl
      exact ⟨v, hv, le_rfl⟩
  | _ => simp [VestingCall.footprint] at hparts

/-- A call that is not on orders and that the owner does not authorise takes nothing. -/
theorem exec_keepsBalance (hnum : s.Numbered) (hs : s.Sealed) (hexec : exec c e s = .ok ((), t))
    (hv : s.vault id = some v) (hlocked : v.status = .locked)
    (hliving : isExpired id e s ≠ .ok (true, s)) (hout : e.authorized v.owner = false)
    (hc : ¬ c.OnOrders id) : KeepsBalance id v t := by
  have hframe : Frame (c.footprint s) s t := exec_frame c hnum _ _ hexec
  by_cases hwrites : id ∈ (c.footprint s).vaults ∧ .balance ∈ (c.footprint s).parts
  swap
  · -- the call does not write the balance of the vault
    by_cases hid : id ∈ (c.footprint s).vaults
    · obtain ⟨w, hw, hagree⟩ := hframe.kept id v hv
      exact ⟨w, hw, (hagree.balance.resolve_left fun hparts => hwrites ⟨hid, hparts⟩).ge⟩
    · exact ⟨v, (hframe.vault_eq hid).trans hv, le_rfl⟩
  obtain ⟨hid, hparts⟩ := hwrites
  cases c with
  | vault x => exact execVault_keepsBalance hid hparts hv hout _ _ hexec
  | withdrawal x => exact execWithdrawal_keepsBalance hid hparts hv hout hc _ _ hexec
  | checkIn x => exact execCheckIn_keepsBalance hid hparts hv (hs.penalty id v hv) _ _ hexec
  | release x => exact execRelease_keepsBalance hid hv hliving hout hexec
  | vesting x => exact execVesting_keepsBalance hs hid hparts hv hlocked hout _ _ hexec
  | heir x =>
      cases x with
      | declineBeneficiaryRole i a =>
          obtain rfl : id = i := by simpa [Call.footprint, HeirCall.footprint] using hid
          exact absurd (Eq.refl id) hc
      | _ => simp [Call.footprint, HeirCall.footprint] at hparts
  | multisig x =>
      cases x with
      | executeMultisig i pid a =>
          obtain rfl : id = i := by simpa [Call.footprint, MultisigCall.footprint] using hid
          obtain ⟨v', p, hdone⟩ := executeMultisig_spec _ _ hexec
          obtain rfl := Option.some.inj (hv.symm.trans hdone.vault)
          have hauth := hdone.authorized
          rw [hdone.owner, hout] at hauth
          cases hauth
      | _ => simp [Call.footprint, MultisigCall.footprint] at hparts
  | _ => exact absurd (Call.mem_parts hparts) (by simp [Call.parts])

/-! ## Calls on orders -/

/-- The balance goes down if and only if the call carries out an order. -/
def Spends (e : Env) (s t : State) (id : Nat) (v : Vault) (c : Call) : Prop :=
  ∃ v', t.vault id = some v' ∧ (v'.balance < v.balance ↔ ∃ o, CarriesOut e s id c o)

theorem Transacts.spends {log : Log} {amount : Int}
    (h : Transacts id v (v.withBalance (v.balance - amount)) log s t)
    (hiff : 0 < amount ↔ ∃ o, CarriesOut e s id c o) : Spends e s t id v c := by
  refine ⟨_, (h.after id).trans (if_pos rfl), Iff.trans ?_ hiff⟩
  show v.balance - amount < v.balance ↔ _
  omega

theorem executeApprovedWithdrawal_spends (hv : s.vault id = some v) :
    wp (executeApprovedWithdrawal id) (fun _ t =>
      Spends e s t id v (.withdrawal (.executeApprovedWithdrawal id))) e s := by
  simp only [executeApprovedWithdrawal, Tx.wp_bind, wp_storageGet, Tx.wp_fromSome, wp_require,
    wp_loadVault, wp_transfer, wp_i128, wp_saveVault, wp_storageRemove]
  intro req hreq henough v' hv' _ hpay _
  obtain rfl := Option.some.inj (hv.symm.trans hv')
  refine Transacts.spends ((Transacts.erase_iff (by simp)).mpr
    (.save hv (fun _ => rfl) rfl (fair_outgoing hpay.1) rfl))
    ⟨fun hpos => ⟨_, .withdrawal req hreq henough hpos⟩, ?_⟩
  rintro ⟨o, ho⟩
  cases ho with
  | withdrawal req' hreq' _ hpos =>
      obtain rfl := Option.some.inj (hreq.symm.trans hreq')
      exact hpos

theorem verifyWithdrawalEscrow_spends (hv : s.vault id = some v) :
    wp (verifyWithdrawalEscrow id caller) (fun _ t =>
      Spends e s t id v (.withdrawal (.verifyWithdrawalEscrow id caller))) e s := by
  simp only [verifyWithdrawalEscrow, Tx.wp_bind, wp_requireAuth, wp_loadVault, wp_storageGet,
    Tx.wp_fromSome, wp_require, wp_transfer, wp_i128, wp_saveVault, wp_storageRemove]
  rintro hauth v' hv' escrow hescrow rfl _ hpay _
  obtain rfl := Option.some.inj (hv.symm.trans hv')
  refine Transacts.spends ((Transacts.erase_iff (by simp)).mpr
    (.save hv (fun _ => rfl) rfl (fair_outgoing hpay.1) rfl))
    ⟨fun hpos => ⟨_, .escrow escrow _ hescrow rfl hauth hpos⟩, ?_⟩
  rintro ⟨o, ho⟩
  cases ho with
  | escrow escrow' _ hescrow' _ _ hpos =>
      obtain rfl := Option.some.inj (hescrow.symm.trans hescrow')
      exact hpos

/-- What is left after the loop is what the due entries leave. -/
theorem scheduleLoop_spends {acc : ScheduleProgress} {schedule : List WithdrawalScheduleEntry} :
    wp (foldEach schedule acc (executeScheduleEntry id v)) (fun acc' _ =>
      acc'.balance ≤ acc.balance ∧ ((∃ entry ∈ schedule, entry.Due e.timestamp) →
        acc'.balance < acc.balance)) e s := by
  induction schedule generalizing acc s with
  | nil => simp [foldEach]
  | cons entry rest ih =>
      simp only [foldEach, executeScheduleEntry, getDelegatedBeneficiary, Tx.wp_bind, wp_timestamp,
        Tx.wp_ite, wp_require, wp_storageGet, wp_transfer, wp_i128, Tx.wp_pure]
      refine ⟨fun hdue _ _ _ => Tx.wp_mono ih ?_, fun hnot => Tx.wp_mono ih ?_⟩
      · rintro acc' _ ⟨hle, -⟩
        have hpos := hdue.2
        dsimp only at hle
        exact ⟨by omega, fun _ => by omega⟩
      · rintro acc' _ ⟨hle, hlt⟩
        refine ⟨hle, ?_⟩
        rintro ⟨entry', hmem, hdue⟩
        rcases List.mem_cons.mp hmem with rfl | hmem
        · exact absurd hdue hnot
        · exact hlt ⟨entry', hmem, hdue⟩

theorem executeScheduledWithdrawal_spends (hv : s.vault id = some v) :
    wp (executeScheduledWithdrawal id) (fun _ t =>
      Spends e s t id v (.withdrawal (.executeScheduledWithdrawal id))) e s := by
  simp only [executeScheduledWithdrawal, Tx.wp_bind, wp_assertNotPaused, wp_loadVault,
    wp_storageGet, Tx.wp_fromSome]
  intro _ v' hv' schedule hschedule
  obtain rfl := Option.some.inj (hv.symm.trans hv')
  -- the first part says that something was due, the second what it has cost
  refine Tx.wp_mono (Tx.wp_and scheduleLoop_pays scheduleLoop_spends) ?_
  rintro acc _ ⟨⟨rfl, -, hexecuted⟩, -, hlt⟩
  simp only [wp_require, wp_saveVault, wp_storageSet]
  intro hdone
  obtain ⟨entry, hmem, hdue⟩ := (hexecuted.mp hdone).resolve_left (by simp)
  refine ⟨v.withBalance acc.balance, by simp, iff_of_true (hlt ⟨entry, hmem, hdue⟩) ?_⟩
  exact ⟨_, .scheduled schedule entry hschedule hmem hdue⟩

/-- A decline takes what is forfeited. -/
theorem declineBeneficiaryRole_spends (hv : s.vault id = some v) :
    wp (declineBeneficiaryRole id caller) (fun _ t =>
      Spends e s t id v (.heir (.declineBeneficiaryRole id caller))) e s := by
  have hauth : wp (declineBeneficiaryRole id caller)
      (fun _ _ => e.authorized caller = true) e s := by
    unfold declineBeneficiaryRole
    rw [Tx.wp_bind, wp_requireAuth]
    exact fun hauth _ _ _ => hauth
  refine Tx.wp_mono (Tx.wp_and declineBeneficiaryRole_declined hauth) ?_
  rintro _ t ⟨⟨v', hdeclined⟩, hauth⟩
  obtain rfl := Option.some.inj (hv.symm.trans hdeclined.vault)
  obtain ⟨w, hw, hbalance⟩ := hdeclined.after
  refine ⟨w, hw, ?_⟩
  rw [hbalance]
  constructor
  · intro hless
    have hforfeits : ∃ a x, s.Forfeits id a x := by
      by_contra hnone
      rw [forfeitable_eq_zero fun a x h => hnone ⟨a, x, h⟩] at hless
      omega
    obtain ⟨a, x, hforfeits⟩ := hforfeits
    exact ⟨_, .forfeiture caller a x hforfeits hauth⟩
  · rintro ⟨o, ho⟩
    cases ho with
    | forfeiture heir a x hforfeits _ =>
        rw [hforfeits.forfeitable]
        obtain ⟨_, _, -, -, -, -, -, hpos⟩ := hforfeits
        omega

/-- A call that the owner does not authorise lowers the balance of a locked vault that has not
expired if and only if it carries out an order. -/
theorem exec_spends (hnum : s.Numbered) (hs : s.Sealed) (hexec : exec c e s = .ok ((), t))
    (hv : s.vault id = some v) (hlocked : v.status = .locked)
    (hliving : isExpired id e s ≠ .ok (true, s)) (hout : e.authorized v.owner = false) :
    Spends e s t id v c := by
  by_cases hc : c.OnOrders id
  · unfold Call.OnOrders at hc
    split at hc
    · subst hc
      exact executeApprovedWithdrawal_spends hv _ _ hexec
    · subst hc
      exact verifyWithdrawalEscrow_spends hv _ _ hexec
    · subst hc
      exact executeScheduledWithdrawal_spends hv _ _ hexec
    · subst hc
      exact declineBeneficiaryRole_spends hv _ _ hexec
    · exact hc.elim
  · obtain ⟨v', hv', hle⟩ := exec_keepsBalance hnum hs hexec hv hlocked hliving hout hc
    refine ⟨v', hv', iff_of_false (not_lt.mpr hle) ?_⟩
    rintro ⟨o, ho⟩
    exact hc ho.onOrders

/-! ## Every run -/

/-- In every run, a call that the owner of a locked vault does not authorise lowers its balance
before the deadline if and only if it carries out an order, and every such order was given by a
call that the owner of its time has authorised. -/
theorem funds_on_orders {w₀ w w' : World} {ks : List Event} (h₀ : Genesis w₀)
    (hrun : Run Step w₀ ks w) (hv : w.state.vault id = some v) (hlocked : v.status = .locked)
    (hliving : isExpired id e w.state ≠ .ok (true, w.state))
    (hstep : Step w (.call e c) w') (hout : e.authorized v.owner = false) :
    (∃ v', w'.state.vault id = some v' ∧
      (v'.balance < v.balance ↔ ∃ o, CarriesOut e w.state id c o)) ∧
    ∀ o, CarriesOut e w.state id c o → Happened Step w₀ (Gives id o) ks :=
  ⟨exec_spends (numbered_of_run hrun h₀) (sealed_of_reachable ⟨w₀, ks, h₀, hrun⟩) hstep.exec_eq hv
    hlocked hliving hout, fun _ ho => order_given h₀ hrun ho.stands⟩

/-- A passer-by starts a payment that the owner has scheduled. -/
theorem scheduled_payment_ordered : ∃ (ks : List Event) (w w' : World) (v v' : Vault),
    Run Step (initialised ⟨8⟩ ⟨9⟩) ks w ∧ w.state.vault 1 = some v ∧
      Step w (.call (signedBy [] 50) (.withdrawal (.executeScheduledWithdrawal 1))) w' ∧
      w'.state.vault 1 = some v' ∧ v'.balance < v.balance ∧
      Happened Step (initialised ⟨8⟩ ⟨9⟩) (Gives 1 (.scheduled 40 30)) ks := by
  have hplay : (play (initialised ⟨8⟩ ⟨9⟩)
      [opensVault 100, paysIn 100,
        (signedBy [⟨1⟩] 0, .withdrawal (.setWithdrawalSchedule 1 [(40, 30)]))]).any (fun w =>
      (play w [(signedBy [] 50, .withdrawal (.executeScheduledWithdrawal 1))]).any fun _ =>
        (w.state.vault 1).any fun v => decide (v.status = .locked ∧ v.deadline = 100 ∧
          w.state.get (.withdrawalSchedule 1) = some [⟨40, 30⟩])) = true := by
    decide +kernel
  obtain ⟨w, hw, hplay⟩ := (Option.any_eq_true _ _).mp hplay
  obtain ⟨w', hw', hplay⟩ := (Option.any_eq_true _ _).mp hplay
  obtain ⟨v, hv, hplay⟩ := (Option.any_eq_true _ _).mp hplay
  obtain ⟨hlocked, hdeadline, hschedule⟩ := of_decide_eq_true hplay
  have hliving : isExpired 1 (signedBy [] 50) w.state ≠ .ok (true, w.state) := by
    rw [Ne, isExpired_iff hv, hdeadline]
    rintro ⟨hle, -⟩
    exact absurd hle (by decide)
  obtain ⟨⟨v', hv', hless⟩, hgiven⟩ := funds_on_orders (genesis_initialised (by decide) (by decide))
    (run_of_play hw) hv hlocked hliving (step_of_play hw') (Eq.refl false)
  have hcarries : CarriesOut (signedBy [] 50) w.state 1
      (.withdrawal (.executeScheduledWithdrawal 1)) (.scheduled 40 30) :=
    .scheduled _ ⟨40, 30⟩ hschedule List.mem_cons_self ⟨by decide, by decide⟩
  exact ⟨_, w, w', v, v', run_of_play hw, hv, step_of_play hw', hv', hless.mpr ⟨_, hcarries⟩,
    hgiven _ hcarries⟩

end Orders

end Heirloom
