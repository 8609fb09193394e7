import Heirloom.System
import Heirloom.Lib.Window

/-!
# The guards of payments to the owner

`withdraw`, `batch_withdraw` and `partial_liquidate` all pay the owner out of a locked
vault. The guards on such payments (the pause of the vault, the approval threshold, the
destination whitelist, and the limits per day, week and month) are written out in
`withdraw`; the other two repeat a part of the list each, and neither of them counts for
the limits.

* `withdrawal_guards_kept`: in every run where the other two only pay out of vaults that
  none of the missing guards is set up for, and limits are set before the payments that
  they should count, every payment passes all guards, and the limits hold for all
  payments of the three operations together.
* `liquidation_passes_limits`: a limit of ten a day does not keep `partial_liquidate` from
  paying ninety, and it pays an owner who is not on the whitelist.
-/

namespace Heirloom

open Transaction Runs Windows

/-! ## Payments and their guards -/

/-- What a call pays to the owner of vault `id`, in order. -/
def Call.payments (id : Nat) : Call → List Int
  | .withdrawal (.withdraw i _ x) => if i = id then [x] else []
  | .withdrawal (.partialLiquidate i x _) => if i = id then [x] else []
  | .withdrawal (.batchWithdraw ids xs _) => ((ids.zip xs).filter (·.1 = id)).map (·.2)
  | _ => []

/-- The payments to the owner of vault `id` in a history, with their times, oldest first. -/
def paymentsFrom (id : Nat) : List Event → List (Nat × Int)
  | [] => []
  | .call e c :: ks => paymentsFrom id ks ++ (c.payments id).map fun x => (e.timestamp, x)
  | .tokens :: ks => paymentsFrom id ks

/-- A payment of `x` out of vault `id` passes every guard but the limits: status, pause, approval
threshold and whitelist. -/
def State.PaymentAllowed (s : State) (id : Nat) (x : Int) : Prop :=
  ∃ v, s.vault id = some v ∧ v.status = .locked ∧ v.isPaused = false ∧
    (∀ threshold, v.withdrawalApprovalThreshold = some threshold → x ≤ threshold) ∧
    OnWhitelist v.owner (s.get (.withdrawalWhitelist id))

/-- The payments of each window stay within the limits, daily, weekly and monthly, by whichever call
they were made. -/
structure PaidWithinLimits (limits : WithdrawalLimit) (payments : List (Nat × Int)) : Prop where
  daily : ∀ w, tally oneDay payments = some w → w.total ≤ limits.dailyLimit
  weekly : ∀ w, tally oneWeek payments = some w → w.total ≤ limits.weeklyLimit
  monthly : ∀ w, tally thirtyDays payments = some w → w.total ≤ limits.monthlyLimit

/-- No guard of vault `id` stands against a payment of `x`, and no limits are set up. -/
def State.Unrestricted (s : State) (id : Nat) (x : Int) : Prop :=
  s.get (.withdrawalLimit id) = none ∧ ∀ v, s.vault id = some v → v.isPaused = false ∧
    (∀ threshold, v.withdrawalApprovalThreshold = some threshold → x ≤ threshold) ∧
    OnWhitelist v.owner (s.get (.withdrawalWhitelist id))

/-- Batches and liquidations, which leave guards of `withdraw` out, only pay where nothing restricts
the payment. -/
def PaysUnrestricted (s : State) (_ : Env) : Call → Prop
  | .withdrawal (.partialLiquidate id x _) => s.Unrestricted id x
  | .withdrawal (.batchWithdraw ids xs _) => ∀ item ∈ ids.zip xs, s.Unrestricted item.1 item.2
  | _ => True

/-- The limits of vault `id` have been set by some call in a history. -/
def LimitsSet (id : Nat) (ks : List Event) : Prop :=
  ∃ e a d w m, Event.call e (.withdrawal (.setWithdrawalLimits id a d w m)) ∈ ks

/-- Limits are first set on vaults whose owner was not paid in the thirty days before. -/
def LimitsFirst : List Event → Prop
  | [] => True
  | .call e (.withdrawal (.setWithdrawalLimits id _ _ _ _)) :: ks =>
      (LimitsSet id ks ∨ ∀ p ∈ paymentsFrom id ks, p.1 + thirtyDays ≤ e.timestamp) ∧ LimitsFirst ks
  | _ :: ks => LimitsFirst ks

/-! ## The tracker -/

/-! The three windows of a tracker. -/

def WithdrawalTracker.daily (tracker : WithdrawalTracker) : Window :=
  ⟨tracker.dailyResetAt, tracker.dailyWithdrawn⟩

def WithdrawalTracker.weekly (tracker : WithdrawalTracker) : Window :=
  ⟨tracker.weeklyResetAt, tracker.weeklyWithdrawn⟩

def WithdrawalTracker.monthly (tracker : WithdrawalTracker) : Window :=
  ⟨tracker.monthlyResetAt, tracker.monthlyWithdrawn⟩

/-- `tracker` is what a payment of `x` at `now` makes of the stored one. -/
structure WithdrawalTracker.Follows (tracker : WithdrawalTracker)
    (stored : Option WithdrawalTracker) (now : Nat) (x : Int) : Prop where
  daily : tracker.daily = enter oneDay (stored.map (·.daily)) (now, x)
  weekly : tracker.weekly = enter oneWeek (stored.map (·.weekly)) (now, x)
  monthly : tracker.monthly = enter thirtyDays (stored.map (·.monthly)) (now, x)

/-- The tracker stays within the limits in each of its three windows. -/
structure WithdrawalTracker.Within (tracker : WithdrawalTracker) (limits : WithdrawalLimit) :
    Prop where
  daily : tracker.dailyWithdrawn ≤ limits.dailyLimit
  weekly : tracker.weeklyWithdrawn ≤ limits.weeklyLimit
  monthly : tracker.monthlyWithdrawn ≤ limits.monthlyLimit

section Tracker

variable {e : Env} {s t : State} {id : Nat} {caller : Address} {amount : Int}

/-- Rolling a window and adding to it is an entry. -/
theorem rollWindow_spec {now resetAt period : Nat} {withdrawn : Int} :
    wp (rollWindow now withdrawn resetAt period) (fun p t => t = s ∧
      ∀ x, (⟨p.2, p.1 + x⟩ : Window) = enter period (some ⟨resetAt, withdrawn⟩) (now, x)) e s := by
  unfold rollWindow
  by_cases h : resetAt ≤ now
  · simp only [if_pos h, Tx.wp_bind, wp_u64, Tx.wp_pure]
    exact fun _ => ⟨trivial, fun x => by simp [enter, h]⟩
  · simp only [if_neg h, Tx.wp_pure]
    exact ⟨trivial, fun x => by simp [enter, h]⟩

/-- The first tracker has its windows begin now. -/
theorem enter_fresh {now period : Nat} {x : Int} (h : 0 < period) :
    enter period (some ⟨now + period, 0⟩) (now, x) = enter period none (now, x) := by
  have hopen : ¬ now + period ≤ now := by omega
  simp [enter, hopen]

/-- The limits of a vault, if there are any, are compared with what the payment makes of
the tracker. -/
theorem checkWithdrawalLimits_spec :
    wp (checkWithdrawalLimits id amount) (fun _ t =>
      (s.get (.withdrawalLimit id) = none ∧ t = s) ∨
      ∃ limits tracker, s.get (.withdrawalLimit id) = some limits ∧
        t = s.put (.withdrawalTracker id) tracker ∧
        tracker.Follows (s.get (.withdrawalTracker id)) e.timestamp amount ∧
        tracker.Within limits) e s := by
  unfold checkWithdrawalLimits
  simp only [Tx.wp_bind, wp_storageGet, Tx.wp_ifSome, wp_timestamp]
  refine ⟨fun limits hlimits => ?_, fun hnone => .inl ⟨hnone, trivial⟩⟩
  -- the windows that are rolled are those of the stored tracker, or begin now
  have htracker : wp (ifSomeElse (s.get (.withdrawalTracker id)) pure (freshTracker e.timestamp))
      (fun tracker t => t = s ∧
        (∀ x, enter oneDay (some tracker.daily) (e.timestamp, x) =
          enter oneDay ((s.get (.withdrawalTracker id)).map (·.daily)) (e.timestamp, x)) ∧
        (∀ x, enter oneWeek (some tracker.weekly) (e.timestamp, x) =
          enter oneWeek ((s.get (.withdrawalTracker id)).map (·.weekly)) (e.timestamp, x)) ∧
        ∀ x, enter thirtyDays (some tracker.monthly) (e.timestamp, x) =
          enter thirtyDays ((s.get (.withdrawalTracker id)).map (·.monthly)) (e.timestamp, x))
      e s := by
    cases hstored : s.get (.withdrawalTracker id) with
    | some tracker =>
        exact Tx.wp_pure.mpr ⟨rfl, fun _ => rfl, fun _ => rfl, fun _ => rfl⟩
    | none =>
        show wp (freshTracker e.timestamp) _ e s
        simp only [freshTracker, Tx.wp_bind, wp_u64, Tx.wp_pure]
        exact fun _ _ _ => ⟨trivial, fun _ => enter_fresh (by decide),
          fun _ => enter_fresh (by decide), fun _ => enter_fresh (by decide)⟩
  refine Tx.wp_mono htracker ?_
  rintro tracker _ ⟨rfl, hdaily, hweekly, hmonthly⟩
  refine Tx.wp_mono rollWindow_spec ?_
  rintro day _ ⟨rfl, hday⟩
  refine Tx.wp_mono rollWindow_spec ?_
  rintro week _ ⟨rfl, hweek⟩
  refine Tx.wp_mono rollWindow_spec ?_
  rintro month _ ⟨rfl, hmonth⟩
  simp only [wp_i128, wp_require, wp_storageSet]
  intro _ hd _ hw _ hm
  refine .inr ⟨limits, _, hlimits, rfl, ⟨?_, ?_, ?_⟩, hd, hw, hm⟩
  · exact (hday amount).trans (hdaily amount)
  · exact (hweek amount).trans (hweekly amount)
  · exact (hmonth amount).trans (hmonthly amount)

/-- What a withdrawal does to the limits and the tracker of its vault. -/
def Tracks (e : Env) (id : Nat) (amount : Int) (s t : State) : Prop :=
  t.get (.withdrawalLimit id) = s.get (.withdrawalLimit id) ∧
    ((s.get (.withdrawalLimit id) = none ∧
        t.get (.withdrawalTracker id) = s.get (.withdrawalTracker id)) ∨
      ∃ limits tracker, s.get (.withdrawalLimit id) = some limits ∧
        t.get (.withdrawalTracker id) = some tracker ∧
        tracker.Follows (s.get (.withdrawalTracker id)) e.timestamp amount ∧
        tracker.Within limits)

theorem withdraw_tracks :
    wp (withdraw id caller amount) (fun _ t => Tracks e id amount s t) e s := by
  simp [withdraw]
  intro _ _ _ v _ _ _ _ _ _ _ _
  refine Tx.wp_mono checkWithdrawalLimits_spec ?_
  rintro _ t (⟨hnone, rfl⟩ | ⟨limits, tracker, hlimits, rfl, hfollows, hwithin⟩) _ _ _ _ _ _
  · exact ⟨by simp, .inl ⟨hnone, by simp⟩⟩
  · exact ⟨by simp, .inr ⟨limits, tracker, hlimits, by simp, hfollows, hwithin⟩⟩

/-- The calls that write what the limits are about. -/
theorem Call.withdrawals_writer {c : Call} (h : .withdrawals ∈ (c.footprint s).areas) :
    ∃ o, c = .withdrawal o := by
  cases c with
  | withdrawal c => exact ⟨c, rfl⟩
  | _ => simpa [Call.areas] using Call.mem_areas h

/-- Every other call leaves the limits and the tracker alone. -/
def SameLimits (id : Nat) (s t : State) : Prop :=
  t.get (.withdrawalLimit id) = s.get (.withdrawalLimit id) ∧
    t.get (.withdrawalTracker id) = s.get (.withdrawalTracker id)

theorem setWithdrawalLimits_tracker {daily weekly monthly : Int} :
    wp (setWithdrawalLimits id caller daily weekly monthly) (fun _ t =>
      t.get (.withdrawalLimit id) ≠ none ∧
        t.get (.withdrawalTracker id) = s.get (.withdrawalTracker id)) e s := by
  simp [setWithdrawalLimits]

theorem exec_sameLimits {c : Call} (hnum : s.Numbered)
    (hset : ¬ ∃ a d w m, c = .withdrawal (.setWithdrawalLimits id a d w m))
    (hwithdraw : ¬ ∃ a x, c = .withdrawal (.withdraw id a x)) :
    wp (exec c) (fun _ t => SameLimits id s t) e s := by
  intro _ t hexec
  have hframe : Frame (c.footprint s) s t := exec_frame c hnum _ _ hexec
  by_cases harea : .withdrawals ∈ (c.footprint s).areas
  swap
  · exact ⟨hframe.get_of_area (by simpa using harea), hframe.get_of_area (by simpa using harea)⟩
  by_cases hid : id ∈ (c.footprint s).vaults
  swap
  · exact ⟨hframe.get_of_vault rfl hid, hframe.get_of_vault rfl hid⟩
  obtain ⟨o, rfl⟩ := Call.withdrawals_writer harea
  have hwp : wp (execWithdrawal o) (fun _ t => SameLimits id s t) e s := by
    cases o with
    | setWithdrawalLimits i a d w m =>
        obtain rfl : id = i := by simpa [Call.footprint, WithdrawalCall.footprint] using hid
        exact absurd ⟨a, d, w, m, rfl⟩ hset
    | withdraw i a x =>
        obtain rfl : id = i := by simpa [Call.footprint, WithdrawalCall.footprint] using hid
        exact absurd ⟨a, x, rfl⟩ hwithdraw
    | addWhitelistAddress => simp [execWithdrawal, addWhitelistAddress, SameLimits]
    | removeWhitelistAddress => simp [execWithdrawal, removeWhitelistAddress, SameLimits]
    | partialLiquidate => simp [execWithdrawal, partialLiquidate, SameLimits]
    | batchWithdraw => simp [Call.footprint, WithdrawalCall.footprint] at harea
    | createWithdrawalEscrow => simp [execWithdrawal, createWithdrawalEscrow, SameLimits]
    | verifyWithdrawalEscrow => simp [execWithdrawal, verifyWithdrawalEscrow, SameLimits]
    | rollbackWithdrawal => simp [execWithdrawal, rollbackWithdrawal, SameLimits]
    | reverseWithdrawal => simp [execWithdrawal, reverseWithdrawal, SameLimits]
    | requestWithdrawalApproval => simp [execWithdrawal, requestWithdrawalApproval, SameLimits]
    | approveWithdrawal => simp [execWithdrawal, approveWithdrawal, SameLimits]
    | executeApprovedWithdrawal => simp [execWithdrawal, executeApprovedWithdrawal, SameLimits]
    | setWithdrawalSchedule => simp [Call.footprint, WithdrawalCall.footprint] at harea
    | executeScheduledWithdrawal => simp [Call.footprint, WithdrawalCall.footprint] at harea
  exact hwp _ _ hexec

end Tracker

/-! ## The tracker along a run -/

/-- The tracker of vault `id` has counted every payment, or none was made lately. -/
inductive Counted (ks : List Event) (w : World) (id : Nat) : Prop
  | idle (hnone : w.state.get (.withdrawalTracker id) = none)
      (hold : ∀ p ∈ paymentsFrom id ks, p.1 + thirtyDays ≤ w.clock)
  | synced (tracker : WithdrawalTracker)
      (hsome : w.state.get (.withdrawalTracker id) = some tracker)
      (hdaily : tally oneDay (paymentsFrom id ks) = some tracker.daily)
      (hweekly : tally oneWeek (paymentsFrom id ks) = some tracker.weekly)
      (hmonthly : tally thirtyDays (paymentsFrom id ks) = some tracker.monthly)

/-- Limits come with a tracker that counts, and without limits there is none. -/
structure LimitsSound (ks : List Event) (w : World) (id : Nat) : Prop where
  unset : w.state.get (.withdrawalLimit id) = none →
    w.state.get (.withdrawalTracker id) = none ∧ ¬ LimitsSet id ks
  set : w.state.get (.withdrawalLimit id) ≠ none → Counted ks w id

section Runs

variable {ks : List Event} {w : World} {e : Env} {c : Call} {t : State} {id : Nat} {x : Int}

/-- One window: an entry follows the tally, if the stored window is the tally or both are
over. -/
theorem tally_follows {period now : Nat} {stored : Option Window} {payments : List (Nat × Int)}
    (h : (stored = none ∧ ∀ p ∈ payments, p.1 + period ≤ now) ∨ tally period payments = stored) :
    tally period (payments ++ [(now, x)]) = some (enter period stored (now, x)) := by
  rw [tally_append_singleton]
  rcases h with ⟨rfl, hold⟩ | rfl
  · rw [enter_of_over (show Over _ (now, x).1 from over_tally hold)]
    rfl
  · rfl

/-- A withdrawal that the tracker counts. -/
theorem Counted.follows {tracker : WithdrawalTracker} (h : Counted ks w id)
    (hfollows : tracker.Follows (w.state.get (.withdrawalTracker id)) e.timestamp x)
    (hclock : w.clock ≤ e.timestamp) :
    tally oneDay (paymentsFrom id ks ++ [(e.timestamp, x)]) = some tracker.daily ∧
      tally oneWeek (paymentsFrom id ks ++ [(e.timestamp, x)]) = some tracker.weekly ∧
      tally thirtyDays (paymentsFrom id ks ++ [(e.timestamp, x)]) = some tracker.monthly := by
  rw [hfollows.daily, hfollows.weekly, hfollows.monthly]
  cases h with
  | idle hnone hold =>
      rw [hnone]
      have hover : ∀ period, period ≤ thirtyDays →
          ∀ p ∈ paymentsFrom id ks, p.1 + period ≤ e.timestamp := by
        intro period hperiod p hp
        have := hold p hp
        omega
      exact ⟨tally_follows (.inl ⟨rfl, hover _ (by decide)⟩),
        tally_follows (.inl ⟨rfl, hover _ (by decide)⟩),
        tally_follows (.inl ⟨rfl, hover _ (by decide)⟩)⟩
  | synced stored hsome hdaily hweekly hmonthly =>
      rw [hsome]
      exact ⟨tally_follows (.inr hdaily), tally_follows (.inr hweekly),
        tally_follows (.inr hmonthly)⟩

/-- The tracker stays right while the owner is not paid. -/
theorem Counted.later {ks' : List Event} (h : Counted ks w id) (hclock : w.clock ≤ e.timestamp)
    (htracker : t.get (.withdrawalTracker id) = w.state.get (.withdrawalTracker id))
    (hpayments : paymentsFrom id ks' = paymentsFrom id ks) : Counted ks' ⟨t, e.timestamp⟩ id := by
  cases h with
  | idle hnone hold =>
      refine .idle (htracker.trans hnone) ?_
      rw [hpayments]
      exact fun p hp => (hold p hp).trans hclock
  | synced tracker hsome hdaily hweekly hmonthly =>
      refine .synced tracker (htracker.trans hsome) ?_ ?_ ?_ <;> rwa [hpayments]

/-- A restricted vault is only paid out of by `withdraw`. -/
theorem payments_eq_nil {s : State} (hguard : PaysUnrestricted s e c)
    (hlimit : s.get (.withdrawalLimit id) ≠ none)
    (hwithdraw : ¬ ∃ a x, c = .withdrawal (.withdraw id a x)) : c.payments id = [] := by
  unfold Call.payments
  split
  · next i a x => exact if_neg fun hi => hwithdraw ⟨a, x, by rw [hi]⟩
  · next i x p =>
      refine if_neg fun hi => hlimit ?_
      subst hi
      exact hguard.1
  · next ids xs a =>
      rw [List.map_eq_nil_iff, List.filter_eq_nil_iff]
      intro item hitem hi
      obtain rfl : item.1 = id := by simpa using hi
      exact hlimit (hguard item hitem).1
  · rfl

/-- A call that sets no limits leaves the history of them alone. -/
theorem not_limitsSet_cons (hset : ¬ ∃ a d w m, c = .withdrawal (.setWithdrawalLimits id a d w m))
    (h : ¬ LimitsSet id ks) : ¬ LimitsSet id (.call e c :: ks) := by
  rintro ⟨e', a, d, m, y, hmem⟩
  rcases List.mem_cons.mp hmem with hcall | hmem
  · obtain ⟨-, rfl⟩ := Event.call.inj hcall
    exact hset ⟨a, d, m, y, rfl⟩
  · exact h ⟨e', a, d, m, y, hmem⟩

/-- One call of a run. -/
theorem exec_limitsSound (hnum : w.state.Numbered) (h : LimitsSound ks w id)
    (hguard : PaysUnrestricted w.state e c) (hfirst : LimitsFirst (.call e c :: ks))
    (hclock : w.clock ≤ e.timestamp) (hexec : exec c e w.state = .ok ((), t)) :
    LimitsSound (.call e c :: ks) ⟨t, e.timestamp⟩ id := by
  by_cases hset : ∃ a d w m, c = .withdrawal (.setWithdrawalLimits id a d w m)
  · obtain ⟨a, d, y, m, rfl⟩ := hset
    obtain ⟨hlimit, htracker⟩ := setWithdrawalLimits_tracker _ _ hexec
    have hpayments :
        paymentsFrom id (.call e (.withdrawal (.setWithdrawalLimits id a d y m)) :: ks) =
          paymentsFrom id ks := by simp [paymentsFrom, Call.payments]
    refine ⟨fun hnone => absurd hnone hlimit, fun _ => ?_⟩
    by_cases hbefore : w.state.get (.withdrawalLimit id) = none
    · -- the first limits: what was paid before is too old to count
      obtain ⟨hnone, hunset⟩ := h.unset hbefore
      refine .idle (htracker.trans hnone) ?_
      rw [hpayments]
      exact hfirst.1.resolve_left hunset
    · exact (h.set hbefore).later hclock htracker hpayments
  · by_cases hwithdraw : ∃ a x, c = .withdrawal (.withdraw id a x)
    · obtain ⟨a, x, rfl⟩ := hwithdraw
      obtain ⟨hlimit, hnone | ⟨limits, tracker, hlimits, htracker, hfollows, -⟩⟩ :=
        withdraw_tracks _ _ hexec
      · obtain ⟨hnone, hsame⟩ := hnone
        obtain ⟨htr, hunset⟩ := h.unset hnone
        refine ⟨fun _ => ⟨hsame.trans htr, not_limitsSet_cons hset hunset⟩, fun hsome => ?_⟩
        exact absurd (hlimit.trans hnone) hsome
      · refine ⟨fun hnone => ?_, fun _ => ?_⟩
        · rw [hlimit, hlimits] at hnone
          cases hnone
        · have hpayments : paymentsFrom id (.call e (.withdrawal (.withdraw id a x)) :: ks) =
              paymentsFrom id ks ++ [(e.timestamp, x)] := by simp [paymentsFrom, Call.payments]
          obtain ⟨hdaily, hweekly, hmonthly⟩ :=
            (h.set (by simp [hlimits])).follows hfollows hclock
          refine .synced tracker htracker ?_ ?_ ?_ <;> rwa [hpayments]
    · have hsame := exec_sameLimits hnum hset hwithdraw _ _ hexec
      refine ⟨fun hnone => ?_, fun hsome => ?_⟩
      · obtain ⟨htr, hunset⟩ := h.unset (hsame.1 ▸ hnone)
        exact ⟨hsame.2.trans htr, not_limitsSet_cons hset hunset⟩
      · have hbefore : w.state.get (.withdrawalLimit id) ≠ none := hsame.1 ▸ hsome
        have hpaid := payments_eq_nil hguard hbefore hwithdraw
        exact (h.set hbefore).later hclock hsame.2 (by simp [paymentsFrom, hpaid])

theorem LimitsFirst.tail {k : Event} (h : LimitsFirst (k :: ks)) : LimitsFirst ks := by
  unfold LimitsFirst at h
  split at h
  · next heq => cases heq
  · next heq =>
      obtain ⟨-, rfl⟩ := List.cons.inj heq
      exact h.2
  · next heq =>
      obtain ⟨-, rfl⟩ := List.cons.inj heq
      exact h

theorem limitsSound_of_run {w₀ : World} (h₀ : Genesis w₀)
    (hrun : Run (Guarded Step (OnCalls PaysUnrestricted)) w₀ ks w) (hfirst : LimitsFirst ks)
    (id : Nat) : LimitsSound ks w id := by
  refine history_of_calls (I := fun ks w => LimitsFirst ks → LimitsSound ks w id) h₀ hrun
    (fun _ => ?_) (fun hnum h hguard hclock hexec hfirst => ?_) (fun l h hfirst => ?_) hfirst
  · refine ⟨fun _ => ⟨h₀.get (by simp), ?_⟩, fun hsome => absurd (h₀.get (by simp)) hsome⟩
    rintro ⟨_, _, _, _, _, hmem⟩
    cases hmem
  · exact exec_limitsSound hnum (h hfirst.tail) hguard hfirst hclock hexec
  · obtain ⟨hunset, hset⟩ := h hfirst
    refine ⟨fun hnone => ⟨(hunset hnone).1, fun hmem => (hunset hnone).2 ?_⟩, fun hsome => ?_⟩
    · obtain ⟨e, a, d, m, y, hmem⟩ := hmem
      exact ⟨e, a, d, m, y, (List.mem_cons.mp hmem).resolve_left Event.noConfusion⟩
    · cases hset hsome with
      | idle hnone hold => exact .idle hnone hold
      | synced tracker htracker hdaily hweekly hmonthly =>
          exact .synced tracker htracker hdaily hweekly hmonthly

end Runs

/-! ## Every payment -/

section Payments

variable {ks : List Event} {w w' : World} {e : Env} {c : Call} {s t : State} {id : Nat} {x : Int}

/-- A batch pays out of locked vaults. -/
theorem batchWithdraw_locked {ids : List Nat} {amounts : List Int} {caller : Address} :
    wp (batchWithdraw ids amounts caller) (fun _ _ => ∀ item ∈ ids.zip amounts, ∃ v,
      s.vault item.1 = some v ∧ v.status = .locked) e s := by
  simp only [batchWithdraw, Tx.wp_bind, wp_loadPaused, wp_require, wp_requireAuth]
  intro _ _ _
  refine Tx.wp_mono validateBatch_spec ?_
  rintro _ u ⟨-, hitems⟩ _ _ _ _ _ _ item hitem
  obtain ⟨v, hv, -, -, hlocked, -⟩ := hitems item hitem
  exact ⟨v, hv, hlocked⟩

/-- A payment that nothing restricts, out of a locked vault. -/
theorem State.Unrestricted.allowed (h : s.Unrestricted id x)
    (hv : ∃ v, s.vault id = some v ∧ v.status = .locked) : s.PaymentAllowed id x := by
  obtain ⟨v, hv, hlocked⟩ := hv
  obtain ⟨hrunning, hthreshold, hlisted⟩ := h.2 v hv
  exact ⟨v, hv, hlocked, hrunning, hthreshold, hlisted⟩

/-- The guards other than the limits. -/
theorem exec_paymentAllowed (hguard : PaysUnrestricted s e c) (hx : x ∈ c.payments id)
    (hexec : exec c e s = .ok ((), t)) : s.PaymentAllowed id x := by
  unfold Call.payments at hx
  split at hx
  · next i a y =>
      split at hx
      · next hi =>
          subst hi
          obtain rfl : x = y := by simpa using hx
          obtain ⟨v, htx, hpayment, hrunning, hthreshold, hlisted⟩ := withdraw_spec _ _ hexec
          exact ⟨v, htx.before, hpayment.locked, hrunning, hthreshold, hlisted⟩
      · cases hx
  · next i y p =>
      split at hx
      · next hi =>
          subst hi
          obtain rfl : x = y := by simpa using hx
          obtain ⟨v, htx, hpayment, -⟩ := partialLiquidate_spec _ _ hexec
          exact hguard.allowed ⟨v, htx.before, hpayment.locked⟩
      · cases hx
  · next ids xs a =>
      obtain ⟨item, hitem, rfl⟩ := List.mem_map.mp hx
      obtain ⟨hmem, hid⟩ := List.mem_filter.mp hitem
      obtain rfl : item.1 = id := by simpa using hid
      exact (hguard item hmem).allowed (batchWithdraw_locked _ _ hexec item hmem)
  · cases hx

/-- For every payment to the owner of a vault in every run where batches and liquidations
only pay where nothing restricts the payment, and limits are set before the payments that
they should count: the vault is locked and not paused, the amount is within the approval
threshold, the owner is on the whitelist, and with this payment the payments of all three
operations stay within the limits. -/
theorem withdrawal_guards_kept {w₀ : World} (h₀ : Genesis w₀)
    (hrun : Run (Guarded Step (OnCalls PaysUnrestricted)) w₀ ks w)
    (hstep : Guarded Step (OnCalls PaysUnrestricted) w (.call e c) w')
    (hfirst : LimitsFirst (.call e c :: ks)) (hx : x ∈ c.payments id) :
    w.state.PaymentAllowed id x ∧ ∀ limits, w.state.get (.withdrawalLimit id) = some limits →
      PaidWithinLimits limits (paymentsFrom id (.call e c :: ks)) := by
  obtain ⟨hstep, hguard⟩ := hstep
  have hguard : PaysUnrestricted w.state e c := hguard
  have hsound := limitsSound_of_run h₀ hrun hfirst.tail id
  cases hstep with
  | call hclock hexec =>
      refine ⟨exec_paymentAllowed hguard hx hexec, fun limits hlimits => ?_⟩
      have hset : w.state.get (.withdrawalLimit id) ≠ none := by simp [hlimits]
      by_cases hwithdraw : ∃ a y, c = .withdrawal (.withdraw id a y)
      · obtain ⟨a, y, rfl⟩ := hwithdraw
        obtain ⟨-, ⟨hnone, -⟩ | ⟨limits', tracker, hlimits', -, hfollows, hwithin⟩⟩ :=
          withdraw_tracks _ _ hexec
        · exact absurd hnone hset
        · obtain rfl : limits' = limits := Option.some.inj (hlimits'.symm.trans hlimits)
          obtain ⟨hdaily, hweekly, hmonthly⟩ := (hsound.set hset).follows hfollows hclock
          have hpayments : paymentsFrom id (.call e (.withdrawal (.withdraw id a y)) :: ks) =
              paymentsFrom id ks ++ [(e.timestamp, y)] := by simp [paymentsFrom, Call.payments]
          rw [hpayments]
          refine ⟨?_, ?_, ?_⟩
          · rw [hdaily]
            rintro _ ⟨rfl⟩
            exact hwithin.daily
          · rw [hweekly]
            rintro _ ⟨rfl⟩
            exact hwithin.weekly
          · rw [hmonthly]
            rintro _ ⟨rfl⟩
            exact hwithin.monthly
      · rw [payments_eq_nil hguard hset hwithdraw] at hx
        cases hx

end Payments

/-- Two withdrawals of five under a limit of ten. -/
theorem withdrawal_guards_kept_twice : ∃ (ks : List Event) (w : World), Reachable w ∧
    paymentsFrom 1 ks = [(10, 5), (20, 5)] ∧ w.state.PaymentAllowed 1 5 ∧
      ∀ limits, w.state.get (.withdrawalLimit 1) = some limits → PaidWithinLimits limits
        (paymentsFrom 1 ks) := by
  have hplay : (play (initialised ⟨8⟩ ⟨9⟩)
      [opensVault 100, paysIn 100,
        (signedBy [⟨1⟩] 0, .withdrawal (.setWithdrawalLimits 1 ⟨1⟩ 10 10 10)),
        (signedBy [⟨1⟩] 10, .withdrawal (.withdraw 1 ⟨1⟩ 5))]).any
      (fun w => (play w [(signedBy [⟨1⟩] 20, .withdrawal (.withdraw 1 ⟨1⟩ 5))]).isSome) = true := by
    decide +kernel
  obtain ⟨w, hw, hlast⟩ := (Option.any_eq_true _ _).mp hplay
  obtain ⟨w', hw'⟩ := Option.isSome_iff_exists.mp hlast
  have hfirst : LimitsFirst (.call (signedBy [⟨1⟩] 20) (.withdrawal (.withdraw 1 ⟨1⟩ 5)) ::
      eventsOf [opensVault 100, paysIn 100,
        (signedBy [⟨1⟩] 0, .withdrawal (.setWithdrawalLimits 1 ⟨1⟩ 10 10 10)),
        (signedBy [⟨1⟩] 10, .withdrawal (.withdraw 1 ⟨1⟩ 5))]) := by
    simp [eventsOf, LimitsFirst, paymentsFrom, Call.payments]
  have hpaid : (5 : Int) ∈ Call.payments 1 (.withdrawal (.withdraw 1 ⟨1⟩ 5)) := by decide
  obtain ⟨hallowed, hlimits⟩ := withdrawal_guards_kept (genesis_initialised (by decide) (by decide))
    (guarded_of_play (by simp [PaysUnrestricted]) hw)
    (guarded_step_of_play (by simp [PaysUnrestricted]) hw') hfirst hpaid
  refine ⟨_, w, reachable_of_play hw, ?_, hallowed, hlimits⟩
  decide

/-- A liquidation pays ninety under a limit of ten, and pays an owner who is not on the
whitelist. -/
theorem liquidation_passes_limits :
    (¬ ∀ (w₀ w w' : World) (ks : List Event) (e : Env) (c : Call) (id : Nat) (x : Int)
      (limits : WithdrawalLimit), Genesis w₀ → Run Step w₀ ks w → Step w (.call e c) w' →
      x ∈ c.payments id → w.state.get (.withdrawalLimit id) = some limits →
        PaidWithinLimits limits (paymentsFrom id (.call e c :: ks))) ∧
    ¬ ∀ (w w' : World) (e : Env) (c : Call) (id : Nat) (x : Int), Reachable w →
      Step w (.call e c) w' → x ∈ c.payments id → w.state.PaymentAllowed id x := by
  constructor
  · have hplay : (play (initialised ⟨8⟩ ⟨9⟩)
        [opensVault 100, paysIn 100,
          (signedBy [⟨1⟩] 0, .withdrawal (.setWithdrawalLimits 1 ⟨1⟩ 10 10 10))]).any
        (fun w => w.state.get (.withdrawalLimit 1) = some ⟨10, 10, 10⟩ ∧
          (play w [(signedBy [⟨1⟩] 10, .withdrawal (.partialLiquidate 1 90 100))]).isSome) =
          true := by decide +kernel
    obtain ⟨w, hw, hchecks⟩ := (Option.any_eq_true _ _).mp hplay
    simp only [decide_eq_true_eq] at hchecks
    obtain ⟨w', hw'⟩ := Option.isSome_iff_exists.mp hchecks.2
    intro h
    have hwithin := h _ w w' _ _ _ 1 90 _ (genesis_initialised (by decide) (by decide))
      (run_of_play hw) (step_of_play hw') (by decide) hchecks.1
    exact absurd (hwithin.daily ⟨86410, 90⟩ (by decide)) (by decide)
  · have hplay : (play (initialised ⟨8⟩ ⟨9⟩)
        [opensVault 100, paysIn 100,
          (signedBy [⟨1⟩] 0, .withdrawal (.addWhitelistAddress 1 ⟨1⟩ ⟨5⟩ ""))]).any
        (fun w => (w.state.vault 1).any (fun v =>
            ¬ OnWhitelist v.owner (w.state.get (.withdrawalWhitelist 1))) ∧
          (play w [(signedBy [⟨1⟩] 10, .withdrawal (.partialLiquidate 1 90 100))]).isSome) =
          true := by decide +kernel
    obtain ⟨w, hw, hchecks⟩ := (Option.any_eq_true _ _).mp hplay
    simp only [decide_eq_true_eq] at hchecks
    obtain ⟨v, hv, hlisted⟩ := (Option.any_eq_true _ _).mp hchecks.1
    simp only [decide_eq_true_eq] at hlisted
    obtain ⟨w', hw'⟩ := Option.isSome_iff_exists.mp hchecks.2
    intro h
    obtain ⟨v', hv', -, -, -, hon⟩ :=
      h w w' _ _ 1 90 (reachable_of_play hw) (step_of_play hw') (by decide)
    obtain rfl : v' = v := Option.some.inj (hv'.symm.trans hv)
    exact hlisted hon

end Heirloom
