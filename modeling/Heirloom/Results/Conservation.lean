import Heirloom.Results.Splits

/-!
# The books of one vault

What the balance of a vault says about the tokens that came in and went out for it.

* `withdrawals_conserve`: deposits, withdrawals, escrows and approvals keep the balance
  equal to what has come in less what has gone out, and not negative, as long as an
  escrow is only paid while the balance covers it and nothing is rolled back or
  reversed: both credit the vault without any tokens (`rollback_without_tokens`).
* `vesting_conserves`: the calls about time-based vesting never raise the balance above
  that, as long as a schedule is only cancelled when it has paid all it is about
  (`cancelled_schedule_credited`) and the vault is not overdrawn.
-/

namespace Heirloom

open Transaction Runs

/-- Between `s` and `t` vault `id` has gone from `v` to `w`, and the transfers `log` were made. -/
structure Moves (id : Nat) (v w : Vault) (log : Log) (s t : State) : Prop where
  before : s.vault id = some v
  after : t.vault id = some w
  ledger : t.ledger.log = s.ledger.log ++ log

section Books

variable {e : Env} {s t u : State} {c : Call} {id : Nat} {v w x : Vault} {log log' : Log}

theorem Moves.refl (hv : s.vault id = some v) : Moves id v v [] s s := ⟨hv, hv, by simp⟩

theorem Moves.trans (h : Moves id v w log s t) (h' : Moves id w x log' t u) :
    Moves id v x (log ++ log') s u :=
  ⟨h.before, h'.after, by rw [h'.ledger, h.ledger, List.append_assoc]⟩

theorem Transacts.moves (h : Transacts id v w log s t) : Moves id v w log s t :=
  ⟨h.before, by simp [h.after], by rw [h.ledger, TokenLedger.Ledger.log_transferAll]⟩

/-- A call that touches neither balances nor tokens. -/
theorem Frame.moves {f : Footprint} (h : Frame f s t) (hbalance : .balance ∉ f.parts)
    (hfunds : .funds ∉ f.parts) (hv : s.vault id = some v) :
    ∃ w, Moves id v w [] s t ∧ w.balance = v.balance := by
  obtain ⟨w, hw, hagree⟩ := h.kept id v hv
  refine ⟨w, ⟨hv, hw, ?_⟩, hagree.balance.resolve_left hbalance⟩
  rw [h.funds.resolve_left hfunds, List.append_nil]

/-- What one call does to the books of a vault holds of a run, if it adds up. -/
theorem booked_of_run {P : State → Env → Call → Prop} {R : Vault → Vault → Log → Prop}
    {w₀ w : World} {ks : List Event} (hw₀ : Reachable w₀) (hv : w₀.state.vault id = some v)
    (hrefl : R v v [])
    (hstep : ∀ {w : World} {x : Vault} {log : Log} {e : Env} {c : Call}, Reachable w → R v x log →
      w.state.vault id = some x → P w.state e c → wp (exec c) (fun _ t =>
        ∃ y log', Moves id x y log' w.state t ∧ R v y (log ++ log')) e w.state)
    (hrun : Run (Guarded Step (OnCalls P)) w₀ ks w) :
    ∃ x log, Moves id v x log w₀.state w.state ∧ R v x log := by
  suffices h : Reachable w ∧ ∃ x log, Moves id v x log w₀.state w.state ∧ R v x log from h.2
  refine hrun.invariant (I := fun w => Reachable w ∧ ∃ x log,
    Moves id v x log w₀.state w.state ∧ R v x log) ⟨hw₀, v, [], .refl hv, hrefl⟩ ?_
  rintro w k w' ⟨hw, x, log, hmoves, hR⟩ ⟨hk, hP⟩
  refine ⟨hw.step hk, ?_⟩
  cases hk with
  | call _ hexec =>
      obtain ⟨y, log', hnext, hR'⟩ := hstep hw hR hmoves.after hP _ _ hexec
      exact ⟨y, log ++ log', hmoves.trans hnext, hR'⟩
  | tokens hlog _ => exact ⟨x, log, ⟨hmoves.before, hmoves.after, hlog.trans hmoves.ledger⟩, hR⟩

/-! ## Escrows, rollbacks and approvals -/

/-- The calls about the withdrawals of vault `id`: deposits, payments to the owner, and what
requests, escrows or takes them back. -/
def Call.Withdraws (id : Nat) : Call → Prop
  | .vault (.deposit i _ _) | .withdrawal (.withdraw i _ _)
  | .withdrawal (.createWithdrawalEscrow i _ _ _) | .withdrawal (.verifyWithdrawalEscrow i _)
  | .withdrawal (.rollbackWithdrawal i _ _) | .withdrawal (.reverseWithdrawal i _ _)
  | .withdrawal (.requestWithdrawalApproval i _ _ _ _) | .withdrawal (.approveWithdrawal i _)
  | .withdrawal (.executeApprovedWithdrawal i) => i = id
  | _ => False

/-- An escrow is paid only if the balance covers it, and nothing is credited without tokens. -/
def State.PaysItsWay (s : State) (id : Nat) : Call → Prop
  | .withdrawal (.verifyWithdrawalEscrow _ _) => ∀ v escrow, s.vault id = some v →
      s.get (.withdrawalEscrow id) = some escrow → escrow.amount ≤ v.balance
  | .withdrawal (.rollbackWithdrawal _ _ _) | .withdrawal (.reverseWithdrawal _ _ _) => False
  | _ => True

/-- The balance is the old one with what has come in less what has gone out, and not negative. -/
def Balanced (v w : Vault) (log : Log) : Prop := w.balance = v.balance + flow log ∧ 0 ≤ w.balance

theorem exec_balanced (hnum : s.Numbered) (hc : c.Withdraws id) (hP : s.PaysItsWay id c)
    (hv : s.vault id = some v) (hb : 0 ≤ v.balance) :
    wp (exec c) (fun _ t => ∃ w log, Moves id v w log s t ∧ Balanced v w log) e s := by
  intro _ t hexec
  have hpaid : ∀ {x amount token dest},
      Transacts id x (x.withBalance (x.balance - amount)) [outgoing token dest amount] s t →
        amount ≤ x.balance → ∃ w log, Moves id v w log s t ∧ Balanced v w log := by
    intro x amount token dest htx hle
    obtain rfl : x = v := by simpa [hv] using htx.before.symm
    refine ⟨_, _, htx.moves, ?_, ?_⟩
    · rw [flow_outgoing]
      exact Int.sub_eq_add_neg
    · simp only [Vault.withBalance_balance]
      omega
  have hstill : .balance ∉ (c.footprint s).parts → .funds ∉ (c.footprint s).parts →
      ∃ w log, Moves id v w log s t ∧ Balanced v w log := by
    intro hbalance hfunds
    obtain ⟨w, hmoves, hsame⟩ := (exec_frame c hnum _ _ hexec).moves hbalance hfunds hv
    exact ⟨w, [], hmoves, by simp [hsame], hsame ▸ hb⟩
  cases c with
  | vault o =>
      cases o with
      | deposit i source amount =>
          obtain rfl : i = id := hc
          obtain ⟨x, htx, hpos, -, -, hauth⟩ := deposit_spec _ _ hexec
          obtain rfl : x = v := by simpa [hv] using htx.before.symm
          have hsource : source ≠ currentContractAddress := by
            rintro rfl
            simp [e.contract_unauthorized] at hauth
          refine ⟨_, _, htx.moves, ?_, ?_⟩
          · rw [flow_incoming hsource]
            rfl
          · simp only [Vault.withBalance_balance]
            omega
      | _ => exact hc.elim
  | withdrawal o =>
      cases o with
      | withdraw i caller amount =>
          obtain rfl : i = id := hc
          obtain ⟨x, htx, hpay, -⟩ := withdraw_spec _ _ hexec
          exact hpaid htx hpay.covered
      | verifyWithdrawalEscrow i caller =>
          obtain rfl : i = id := hc
          obtain ⟨x, escrow, htx, hescrow, -⟩ := verifyWithdrawalEscrow_spec _ _ hexec
          exact hpaid htx (hP x escrow htx.before hescrow)
      | executeApprovedWithdrawal i =>
          obtain rfl : i = id := hc
          obtain ⟨x, amount, htx, -, hle⟩ := executeApprovedWithdrawal_spec _ _ hexec
          exact hpaid htx hle
      | createWithdrawalEscrow | requestWithdrawalApproval | approveWithdrawal =>
          exact hstill (by simp [Call.footprint, WithdrawalCall.footprint])
            (by simp [Call.footprint, WithdrawalCall.footprint])
      | rollbackWithdrawal | reverseWithdrawal => exact hP.elim
      | _ => exact hc.elim
  | _ => exact hc.elim

/-- Deposits, withdrawals, escrows and approvals of a vault, in any order, keep its balance equal
to what has come in less what has gone out, and not negative. -/
theorem withdrawals_conserve {w₀ w : World} {ks : List Event} (hw₀ : Reachable w₀)
    (hv : w₀.state.vault id = some v) (hb : 0 ≤ v.balance)
    (hrun : Run (Guarded Step (OnCalls fun s _ c => c.Withdraws id ∧ s.PaysItsWay id c)) w₀ ks w) :
    ∃ x log, Moves id v x log w₀.state w.state ∧ Balanced v x log := by
  refine booked_of_run hw₀ hv ⟨by simp, hb⟩ ?_ hrun
  rintro w x log e c hw ⟨hsum, hx⟩ hvault ⟨hc, hP⟩
  refine Tx.wp_mono (exec_balanced hw.numbered hc hP hvault hx) ?_
  rintro _ t ⟨y, log', hmoves, hsum', hy⟩
  refine ⟨y, log', hmoves, ?_, hy⟩
  rw [hsum', hsum, flow_append, add_assoc]

/-- A deposit, an escrow, a withdrawal that leaves enough for it, and the payment of the escrow. -/
theorem withdrawals_conserve_escrow : ∃ (w₀ w : World) (v x : Vault) (log : Log), Reachable w₀ ∧
    Moves 1 v x log w₀.state w.state ∧ Balanced v x log ∧ x.balance = 10 := by
  have hplay : (play (initialised ⟨8⟩ ⟨9⟩)
      [opensVault 100]).any
      (fun w₀ => (w₀.state.vault 1).any (fun v => v.balance = 0) ∧
        (play w₀ [paysIn 100,
          (signedBy [⟨1⟩] 0, .withdrawal (.createWithdrawalEscrow 1 60 ⟨6⟩ ⟨1⟩)),
          (signedBy [⟨1⟩] 0, .withdrawal (.withdraw 1 ⟨1⟩ 30))]).any fun w₁ =>
            (w₁.state.vault 1).any (fun v => v.balance = 70) ∧
            (w₁.state.get (.withdrawalEscrow 1)).any (fun x => x.amount = 60) ∧
            (play w₁ [(signedBy [⟨6⟩] 0, .withdrawal (.verifyWithdrawalEscrow 1 ⟨6⟩))]).any
              fun w => (w.state.vault 1).any fun v => v.balance = 10) = true := by decide +kernel
  obtain ⟨w₀, hw₀, hchecks⟩ := (Option.any_eq_true _ _).mp hplay
  simp only [decide_eq_true_eq, Option.any_eq_true] at hchecks
  obtain ⟨⟨v, hv, hzero⟩, w₁, hw₁, ⟨v₁, hv₁, hbalance⟩, ⟨escrow, hescrow, hamount⟩, w, hw,
    y, hy, hten⟩ := hchecks
  have hcovered : ∀ v escrow, w₁.state.vault 1 = some v →
      w₁.state.get (.withdrawalEscrow 1) = some escrow → escrow.amount ≤ v.balance := by
    intro v' escrow' hv' hescrow'
    obtain rfl := Option.some.inj (hv₁.symm.trans hv')
    obtain rfl := Option.some.inj (hescrow.symm.trans hescrow')
    omega
  have hverify : Call.Withdraws 1 (.withdrawal (.verifyWithdrawalEscrow 1 ⟨6⟩)) := rfl
  obtain ⟨x, log, hmoves, hbalanced⟩ := withdrawals_conserve (reachable_of_play hw₀) hv (by omega)
    (.next (guarded_of_play (by simp [Call.Withdraws, State.PaysItsWay]) hw₁)
      (guarded_step_of_play ⟨hverify, hcovered⟩ hw))
  obtain rfl := Option.some.inj (hmoves.after.symm.trans hy)
  exact ⟨w₀, w, v, x, log, reachable_of_play hw₀, hmoves, hbalanced, hten⟩

/-- A rollback credits the vault with tokens that nobody has paid. -/
theorem rollback_without_tokens : ¬ ∀ (w₀ w : World) (ks : List Event) (id : Nat) (v : Vault),
    Reachable w₀ → w₀.state.vault id = some v → 0 ≤ v.balance →
      Run (Guarded Step (OnCalls fun _ _ c => c.Withdraws id)) w₀ ks w →
        ∃ x log, Moves id v x log w₀.state w.state ∧ Balanced v x log := by
  have hplay : (play (initialised ⟨8⟩ ⟨9⟩)
      [opensVault 100, paysIn 100]).any
      (fun w₀ => (w₀.state.vault 1).any (fun v => v.balance = 100) ∧
        (play w₀ [(signedBy [⟨1⟩] 0, .withdrawal (.rollbackWithdrawal 1 50 ⟨1⟩))]).any fun w =>
          (w.state.vault 1).any (fun v => v.balance = 150) ∧
            w.state.ledger.log = w₀.state.ledger.log) = true := by decide +kernel
  obtain ⟨w₀, hw₀, hchecks⟩ := (Option.any_eq_true _ _).mp hplay
  simp only [decide_eq_true_eq, Option.any_eq_true] at hchecks
  obtain ⟨⟨v, hv, hbalance⟩, w, hw, ⟨y, hy, hcredited⟩, hlog⟩ := hchecks
  intro h
  obtain ⟨x, log, hmoves, hsum, -⟩ := h w₀ w _ 1 v (reachable_of_play hw₀) hv (by omega)
    (guarded_of_play (by simp [Call.Withdraws]) hw)
  obtain rfl := Option.some.inj (hmoves.after.symm.trans hy)
  obtain rfl : log = [] := by simpa [hlog] using hmoves.ledger
  simp only [flow_nil] at hsum
  omega

/-! ## Time-based vesting -/

/-- The calls about the time-based vesting of vault `id`: its schedule and penalty, the claims, and
the release that starts them. -/
def Call.VestsByTime (id : Nat) : Call → Prop
  | .vesting (.setVestingSchedule i _ _ _ _ _ _) | .vesting (.cancelVestingSchedule i _ _)
  | .vesting (.setVestingPenalty i _ _ _) | .vesting (.claimVestedInstallment i)
  | .vesting (.initiateVestingClaim i _) | .vesting (.reverseVestingClaim i _)
  | .vesting (.finalizeVestingClaim i) | .vesting (.clawbackUnvested i _)
  | .release (.triggerRelease i) => i = id
  | _ => False

/-- A schedule is cancelled only when it has paid all it is about, or when the balance has no
room for the rest, and no overdrawn vault pays its heirs. -/
def State.CreditsNothing (s : State) (e : Env) (id : Nat) : Call → Prop
  | .vesting (.cancelVestingSchedule _ i _) => ∀ v x, s.vault id = some v →
      s.get (.vestingSchedule id i) = some x →
        i128Min ≤ v.balance ∧ (x.unvested ≤ 0 ∨ v.balance = i128Max)
  | .vesting (.claimVestedInstallment _) => ∀ v, s.vault id = some v → 0 ≤ v.balance
  | .release (.triggerRelease _) =>
      s.Unpaid e id ∨ ∀ v, s.vault id = some v → 0 ≤ v.balance
  | _ => True

/-- What is left of a schedule, as the cancellation computes it. -/
theorem unclaimed_eq {schedule : VestingSchedule} {x : Int}
    (h : schedule.unclaimed e s = .ok (x, t)) : x = clampI128 schedule.unvested := by
  simp only [VestingSchedule.unclaimed, Tx.ok_bind, ok_divI, ok_i128, Tx.ok_pure] at h
  obtain ⟨_, _, ⟨_, rfl, rfl⟩, _, _, ⟨_, rfl, rfl⟩, rfl, -⟩ := h
  rfl

/-- A saturating sum with something that is not positive, or at the upper bound. -/
theorem clampI128_add_le {a b : Int} (ha : i128Min ≤ a) (h : b ≤ 0 ∨ a = i128Max) :
    clampI128 (a + clampI128 b) ≤ a := by
  have hbounds : i128Min ≤ 0 := by decide
  refine max_le ha ?_
  rcases h with hb | rfl
  · have hclamped : clampI128 b ≤ 0 := max_le hbounds ((min_le_left _ _).trans hb)
    exact (min_le_left _ _).trans (by omega)
  · exact min_le_right _ _

/-- A release takes what it pays out of the balance. -/
theorem Releases.balance_le (h : Releases e id v s t) (hb : s.Unpaid e id ∨ 0 ≤ v.balance)
    (hrange : v.InRange) :
    ∃ w log, Moves id v w log s t ∧ w.balance ≤ v.balance + flow log := by
  cases h with
  | refunded _ _ h _ => exact ⟨_, _, h.moves, by simp⟩
  | vested _ h _ => exact ⟨_, _, h.moves, by simp [Vault.rotated]⟩
  | paid log hnot h _ hflow _ =>
      have hamount : 0 ≤ v.releaseAmount :=
        releaseAmount_nonneg (hb.resolve_left hnot) fun l hl => (hrange.2 l hl).le
      have hout := hflow hamount hrange.1
      refine ⟨_, log, h.moves, ?_⟩
      show v.balance - v.releaseAmount ≤ v.balance + flow log
      omega

theorem exec_creditsNothing {w : World} (hw : Reachable w) (hc : c.VestsByTime id)
    (hP : w.state.CreditsNothing e id c) (hv : w.state.vault id = some v) :
    wp (exec c) (fun _ t => ∃ x log, Moves id v x log w.state t ∧
      x.balance ≤ v.balance + flow log) e w.state := by
  intro _ t hexec
  have hstill : .balance ∉ (c.footprint w.state).parts → .funds ∉ (c.footprint w.state).parts →
      ∃ x log, Moves id v x log w.state t ∧ x.balance ≤ v.balance + flow log := by
    intro hbalance hfunds
    obtain ⟨x, hmoves, hsame⟩ := (exec_frame c hw.numbered _ _ hexec).moves hbalance hfunds hv
    exact ⟨x, [], hmoves, by simp [hsame]⟩
  have hpaid : ∀ {x : Vault} {dest : Address} {amount : Int}, PaysOut id x dest amount w.state t →
      ∃ x log, Moves id v x log w.state t ∧ x.balance ≤ v.balance + flow log := by
    intro x dest amount hpay
    obtain rfl : x = v := by simpa [hv] using hpay.transacts.before.symm
    refine ⟨_, _, hpay.transacts.moves, ?_⟩
    rw [flow_outgoing]
    exact Int.sub_eq_add_neg.le
  cases c with
  | release o =>
      cases o with
      | triggerRelease i =>
          obtain rfl : i = id := hc
          obtain ⟨x, hx, -, -, -, hrel⟩ :=
            triggerReleaseInternal_spec (hw.sound.rotationSound i) _ _ hexec
          obtain rfl := Option.some.inj (hx.symm.trans hv)
          exact hrel.balance_le (hP.imp_right fun h => h x hx) (hw.sound.settings i x hx)
      | _ => exact hc.elim
  | vesting o =>
      cases o with
      | cancelVestingSchedule i j caller =>
          obtain rfl : i = id := hc
          obtain ⟨x, schedule, y, htx, -, -, hschedule, hy⟩ :=
            cancelVestingSchedule_spec _ _ hexec
          obtain rfl := Option.some.inj (htx.before.symm.trans hv)
          obtain ⟨hmin, hnone⟩ := hP x schedule htx.before hschedule
          refine ⟨_, _, htx.moves, ?_⟩
          rw [flow_nil, add_zero, unclaimed_eq hy]
          exact clampI128_add_le hmin hnone
      | claimVestedInstallment i =>
          obtain rfl : i = id := hc
          simp only [exec, execVesting, Tx.ok_bind, Tx.ok_pure] at hexec
          obtain ⟨amount, _, hrun, -, rfl⟩ := hexec
          obtain ⟨x, hclaim⟩ := claimVestedInstallment_spec _ _ hrun
          obtain rfl := Option.some.inj (hclaim.transacts.before.symm.trans hv)
          have hamount := hclaim.nonneg (hP x hv) (hw.vestingSound i)
          refine ⟨_, _, hclaim.transacts.moves, ?_⟩
          rw [flow_heirsLog hamount (hw.sound.heirs i x hv)]
          exact Int.sub_eq_add_neg.le
      | finalizeVestingClaim i =>
          obtain rfl : i = id := hc
          simp only [exec, execVesting, Tx.ok_bind, Tx.ok_pure] at hexec
          obtain ⟨amount, _, hrun, -, rfl⟩ := hexec
          obtain ⟨x, pending, hpay, -⟩ := finalizeVestingClaim_spec _ _ hrun
          exact hpaid hpay
      | clawbackUnvested i caller =>
          obtain rfl : i = id := hc
          simp only [exec, execVesting, Tx.ok_bind, Tx.ok_pure] at hexec
          obtain ⟨amount, _, hrun, -, rfl⟩ := hexec
          obtain ⟨x, hpay, -⟩ := clawbackUnvested_spec _ _ hrun
          exact hpaid hpay
      | setVestingSchedule | setVestingPenalty | initiateVestingClaim | reverseVestingClaim =>
          exact hstill (by simp [Call.footprint, VestingCall.footprint])
            (by simp [Call.footprint, VestingCall.footprint])
      | _ => exact hc.elim
  | _ => exact hc.elim

/-- The calls about time-based vesting, with a release among them, never raise the balance of a
vault without an incoming transfer. -/
theorem vesting_conserves {w₀ w : World} {ks : List Event} (hw₀ : Reachable w₀)
    (hv : w₀.state.vault id = some v)
    (hrun : Run (Guarded Step
      (OnCalls fun s e c => c.VestsByTime id ∧ s.CreditsNothing e id c)) w₀ ks w) :
    ∃ x log, Moves id v x log w₀.state w.state ∧ x.balance ≤ v.balance + flow log := by
  refine booked_of_run (R := fun v x log => x.balance ≤ v.balance + flow log) hw₀ hv (by simp) ?_
    hrun
  rintro w x log e c hw hle hvault ⟨hc, hP⟩
  refine Tx.wp_mono (exec_creditsNothing hw hc hP hvault) ?_
  rintro _ t ⟨y, log', hmoves, hle'⟩
  refine ⟨y, log', hmoves, ?_⟩
  rw [flow_append]
  omega

/-- A schedule is set up, released and claimed in full, and then cancelled. -/
theorem vesting_conserves_full_claim : ∃ (w₀ w : World) (v x : Vault) (log : Log), Reachable w₀ ∧
    Moves 1 v x log w₀.state w.state ∧ x.balance ≤ v.balance + flow log ∧ v.balance = 100 := by
  have hplay : (play (initialised ⟨8⟩ ⟨9⟩)
      [opensVault 100, paysIn 100]).any
      (fun w₀ => (w₀.state.vault 1).any (fun v => v.balance = 100) ∧
        (play w₀ [(signedBy [⟨1⟩] 0, .vesting (.setVestingSchedule 1 ⟨1⟩ 0 10 1 100 0))]).any
          fun w₁ => (w₁.state.vault 1).any (fun v => 0 ≤ v.balance) ∧
        (play w₁ [(signedBy [] 200, .release (.triggerRelease 1))]).any
          fun w₂ => (w₂.state.vault 1).any (fun v => 0 ≤ v.balance) ∧
        (play w₂ [(signedBy [] 200, .vesting (.claimVestedInstallment 1))]).any
          fun w₃ => (w₃.state.vault 1).any (fun v => 0 ≤ v.balance) ∧
            (w₃.state.get (.vestingSchedule 1 0)).any (fun x => x.unvested = 0) ∧
        (play w₃ [(signedBy [⟨1⟩] 200, .vesting (.cancelVestingSchedule 1 0 ⟨1⟩))]).isSome)
      = true := by decide +kernel
  obtain ⟨w₀, hw₀, hchecks⟩ := (Option.any_eq_true _ _).mp hplay
  simp only [decide_eq_true_eq, Option.any_eq_true, Option.isSome_iff_exists] at hchecks
  obtain ⟨⟨v, hv, hbalance⟩, w₁, hw₁, ⟨v₁, hv₁, hb₁⟩, w₂, hw₂, ⟨v₂, hv₂, hb₂⟩, w₃, hw₃,
    ⟨v₃, hv₃, hb₃⟩, ⟨schedule, hschedule, hpaid⟩, w, hw⟩ := hchecks
  have hcovered : ∀ {w : World} {v : Vault}, w.state.vault 1 = some v → 0 ≤ v.balance →
      ∀ v, w.state.vault 1 = some v → 0 ≤ v.balance := by
    intro w v hv hb x hx
    exact Option.some.inj (hv.symm.trans hx) ▸ hb
  have hcancel : ∀ e, w₃.state.CreditsNothing e 1 (.vesting (.cancelVestingSchedule 1 0 ⟨1⟩)) := by
    intro e v x hv hx
    obtain rfl := Option.some.inj (hschedule.symm.trans hx)
    have hmin : i128Min ≤ 0 := by decide
    exact ⟨hmin.trans (hcovered hv₃ hb₃ v hv), .inl hpaid.le⟩
  have hclaim : Call.VestsByTime 1 (.vesting (.claimVestedInstallment 1)) := rfl
  have hrelease : Call.VestsByTime 1 (.release (.triggerRelease 1)) := rfl
  have hcancels : Call.VestsByTime 1 (.vesting (.cancelVestingSchedule 1 0 ⟨1⟩)) := rfl
  obtain ⟨x, log, hmoves, hle⟩ := vesting_conserves (reachable_of_play hw₀) hv
    (.next (.next (.next
      (guarded_of_play (by simp [Call.VestsByTime, State.CreditsNothing]) hw₁)
      (guarded_step_of_play ⟨hrelease, .inr (hcovered hv₁ hb₁)⟩ hw₂))
      (guarded_step_of_play ⟨hclaim, hcovered hv₂ hb₂⟩ hw₃))
      (guarded_step_of_play ⟨hcancels, hcancel _⟩ hw))
  exact ⟨w₀, w, v, x, log, reachable_of_play hw₀, hmoves, hle, hbalance⟩

/-- A cancelled schedule is credited to the balance that still holds all of it. -/
theorem cancelled_schedule_credited : ¬ ∀ (w₀ w : World) (ks : List Event) (id : Nat) (v : Vault),
    Reachable w₀ → w₀.state.vault id = some v →
      Run (Guarded Step (OnCalls fun _ _ c => c.VestsByTime id)) w₀ ks w →
        ∃ x log, Moves id v x log w₀.state w.state ∧ x.balance ≤ v.balance + flow log := by
  have hplay : (play (initialised ⟨8⟩ ⟨9⟩)
      [opensVault 100, paysIn 100]).any
      (fun w₀ => (w₀.state.vault 1).any (fun v => v.balance = 100) ∧
        (play w₀ [(signedBy [⟨1⟩] 0, .vesting (.setVestingSchedule 1 ⟨1⟩ 0 10 1 100 0)),
          (signedBy [⟨1⟩] 0, .vesting (.cancelVestingSchedule 1 0 ⟨1⟩))]).any fun w =>
          (w.state.vault 1).any (fun v => v.balance = 200) ∧
            w.state.ledger.log = w₀.state.ledger.log) = true := by decide +kernel
  obtain ⟨w₀, hw₀, hchecks⟩ := (Option.any_eq_true _ _).mp hplay
  simp only [decide_eq_true_eq, Option.any_eq_true] at hchecks
  obtain ⟨⟨v, hv, hbalance⟩, w, hw, ⟨y, hy, hcredited⟩, hlog⟩ := hchecks
  intro h
  obtain ⟨x, log, hmoves, hle⟩ := h w₀ w _ 1 v (reachable_of_play hw₀) hv
    (guarded_of_play (by simp [Call.VestsByTime]) hw)
  obtain rfl := Option.some.inj (hmoves.after.symm.trans hy)
  obtain rfl : log = [] := by simpa [hlog] using hmoves.ledger
  simp only [flow_nil] at hle
  omega

end Books

end Heirloom
