import Heirloom.Results.Collateral

/-!
# Approved withdrawals

A withdrawal that needs approvals lives under two keys: the request with the approvals
given so far, and the list of those who may approve it. Both are set by the owner's
request, and nothing else sets the list.

* `approved_withdrawal_live_iff`: a payment is one of the last request, which was not paid
  before, with enough approvals of its own approvers. That it still was in time, and of a
  locked vault, is not looked at.
-/

namespace Heirloom

open Transaction Runs

/-! ## Requests in a history -/

/-- A request to withdraw from a vault, and who has approved it. -/
structure ApprovalRound where
  approvers : List Address
  requiredApprovals : Nat
  expiresAt : Nat
  approvals : List Address

/-- The calls that make, approve and pay withdrawal requests of vault `id`. -/
def Call.OnRequest (id : Nat) : Call → Prop
  | .withdrawal (.requestWithdrawalApproval i _ _ _ _) | .withdrawal (.approveWithdrawal i _)
  | .withdrawal (.executeApprovedWithdrawal i) => i = id
  | _ => False

/-- The last request of vault `id` in a history. -/
def lastRound (id : Nat) : List Event → Option ApprovalRound
  | [] => none
  | .call e (.withdrawal (.requestWithdrawalApproval i _ _ as n)) :: ks =>
      if i = id then some ⟨as, n, e.timestamp + oneWeek, []⟩ else lastRound id ks
  | .call _ (.withdrawal (.approveWithdrawal i a)) :: ks =>
      if i = id then (lastRound id ks).map fun r => { r with approvals := r.approvals ++ [a] }
      else lastRound id ks
  | _ :: ks => lastRound id ks

/-- How often a request of vault `id` was paid since the last one was made. -/
def timesPaid (id : Nat) : List Event → Nat
  | [] => 0
  | .call _ (.withdrawal (.requestWithdrawalApproval i _ _ _ _)) :: ks =>
      if i = id then 0 else timesPaid id ks
  | .call _ (.withdrawal (.executeApprovedWithdrawal i)) :: ks =>
      if i = id then timesPaid id ks + 1 else timesPaid id ks
  | _ :: ks => timesPaid id ks

/-- Enough distinct addresses of the approver list of the request have approved it. Nobody is
counted twice, and nobody who is not on the list. -/
structure ApprovalRound.Approved (r : ApprovalRound) : Prop where
  distinct : r.approvals.Nodup
  own : ∀ a ∈ r.approvals, a ∈ r.approvers
  enough : r.requiredApprovals ≤ r.approvals.length

/-- After the history `ks`, a payment by `execute_approved_withdrawal` at the time of `e` is
one of a request that is approved, in time and not paid yet, out of a locked vault. -/
def PaysLive (id : Nat) (ks : List Event) (e : Env) (s : State) : Prop :=
  ∃ r, lastRound id ks = some r ∧ timesPaid id ks = 0 ∧ r.Approved ∧
    e.timestamp ≤ r.expiresAt ∧ ∃ v, s.vault id = some v ∧ v.status = .locked

/-! ## The stored request -/

/-- What a call does to the request of vault `id` and to its approver list. -/
inductive RequestEffect (e : Env) (id : Nat) (s t : State) : Call → Prop
  | kept {c : Call} (hc : ¬ c.OnRequest id)
      (hrequest : t.get (.withdrawalApprovalRequest id) = s.get (.withdrawalApprovalRequest id))
      (happrovers : t.get (.withdrawalApprovers id) = s.get (.withdrawalApprovers id)) :
      RequestEffect e id s t c
  | requested {a : Address} {x : Int} {as : List Address} {n : Nat}
      (hrequest : t.get (.withdrawalApprovalRequest id) =
        some ⟨x, e.timestamp, [], n, e.timestamp + oneWeek⟩)
      (happrovers : t.get (.withdrawalApprovers id) = some as) :
      RequestEffect e id s t (.withdrawal (.requestWithdrawalApproval id a x as n))
  | approved {a : Address} {as : List Address} {req : WithdrawalApprovalRequest}
      (hbefore : s.get (.withdrawalApprovalRequest id) = some req)
      (hlist : s.get (.withdrawalApprovers id) = some as) (ha : a ∈ as) (hnew : a ∉ req.approvals)
      (hrequest : t.get (.withdrawalApprovalRequest id) =
        some { req with approvals := req.approvals ++ [a] })
      (happrovers : t.get (.withdrawalApprovers id) = some as) :
      RequestEffect e id s t (.withdrawal (.approveWithdrawal id a))
  | paid {req : WithdrawalApprovalRequest}
      (hbefore : s.get (.withdrawalApprovalRequest id) = some req)
      (henough : req.requiredApprovals ≤ req.approvals.length)
      (hrequest : t.get (.withdrawalApprovalRequest id) = none) :
      RequestEffect e id s t (.withdrawal (.executeApprovedWithdrawal id))

section Requests

variable {e : Env} {s t : State} {c : Call} {id : Nat} {ks : List Event}

theorem approveWithdrawal_effect {a : Address} :
    wp (approveWithdrawal id a)
      (fun _ t => RequestEffect e id s t (.withdrawal (.approveWithdrawal id a))) e s := by
  simp only [approveWithdrawal, Tx.wp_bind, wp_requireAuth, wp_storageGet, Tx.wp_fromSome,
    wp_require, wp_timestamp, wp_storageSet]
  intro _ as has ha req hreq _ hnew
  exact .approved hreq has ha hnew (State.get_put_self ..) (by simpa using has)

theorem executeApprovedWithdrawal_effect :
    wp (executeApprovedWithdrawal id)
      (fun _ t => RequestEffect e id s t (.withdrawal (.executeApprovedWithdrawal id))) e s := by
  simp only [executeApprovedWithdrawal, Tx.wp_bind, wp_storageGet, Tx.wp_fromSome, wp_require,
    wp_loadVault, wp_transfer, wp_i128, wp_saveVault, wp_storageRemove]
  intro req hreq henough _ _ _ _ _
  exact .paid hreq henough (State.get_erase_self ..)

/-- The requests of a vault are left alone by the other calls. -/
theorem exec_request (hnum : s.Numbered) (hexec : exec c e s = .ok ((), t)) :
    RequestEffect e id s t c := by
  have hframe : Frame (c.footprint s) s t := exec_frame c hnum _ _ hexec
  by_cases hwrites : .withdrawals ∈ (c.footprint s).areas ∧ id ∈ (c.footprint s).vaults
  swap
  · have hc : ¬ c.OnRequest id := by
      intro hc
      refine hwrites ?_
      unfold Call.OnRequest at hc
      split at hc <;> first | exact hc.elim | simp [Call.footprint, WithdrawalCall.footprint, hc]
    rcases not_and_or.mp hwrites with harea | hid
    · exact .kept hc (hframe.get_of_area (by simpa using harea))
        (hframe.get_of_area (by simpa using harea))
    · exact .kept hc (hframe.get_of_vault rfl hid) (hframe.get_of_vault rfl hid)
  obtain ⟨harea, hid⟩ := hwrites
  obtain ⟨o, rfl⟩ := Call.withdrawals_writer harea
  have hother : (¬ (Call.withdrawal o).OnRequest id) → wp (execWithdrawal o) (fun _ t =>
      t.get (.withdrawalApprovalRequest id) = s.get (.withdrawalApprovalRequest id) ∧
        t.get (.withdrawalApprovers id) = s.get (.withdrawalApprovers id)) e s →
      RequestEffect e id s t (.withdrawal o) := fun hc hwp =>
    .kept hc (hwp _ _ hexec).1 (hwp _ _ hexec).2
  cases o with
  | requestWithdrawalApproval i a x as n =>
      obtain rfl : id = i := by simpa [Call.footprint, WithdrawalCall.footprint] using hid
      have hwp : wp (requestWithdrawalApproval id a x as n) (fun _ t => RequestEffect e id s t
          (.withdrawal (.requestWithdrawalApproval id a x as n))) e s := by
        simp only [requestWithdrawalApproval, Tx.wp_bind, wp_requireAuth, wp_loadVault, wp_require,
          wp_timestamp, wp_u64, wp_storageSet]
        intro _ _ _ _ _ _ _
        exact .requested (by simp) (State.get_put_self ..)
      exact hwp _ _ hexec
  | approveWithdrawal i a =>
      obtain rfl : id = i := by simpa [Call.footprint, WithdrawalCall.footprint] using hid
      exact approveWithdrawal_effect _ _ hexec
  | executeApprovedWithdrawal i =>
      obtain rfl : id = i := by simpa [Call.footprint, WithdrawalCall.footprint] using hid
      exact executeApprovedWithdrawal_effect _ _ hexec
  | withdraw i a x =>
      refine hother not_false ?_
      simp [execWithdrawal, withdraw]
      intros
      refine Tx.wp_mono checkWithdrawalLimits_frame ?_
      rintro _ _ (rfl | ⟨tracker, rfl⟩) <;> simp
  | setWithdrawalLimits => exact hother not_false (by simp [execWithdrawal, setWithdrawalLimits])
  | addWhitelistAddress => exact hother not_false (by simp [execWithdrawal, addWhitelistAddress])
  | removeWhitelistAddress => exact hother not_false (by simp [execWithdrawal, removeWhitelistAddress])
  | partialLiquidate => exact hother not_false (by simp [execWithdrawal, partialLiquidate])
  | createWithdrawalEscrow => exact hother not_false (by simp [execWithdrawal, createWithdrawalEscrow])
  | verifyWithdrawalEscrow => exact hother not_false (by simp [execWithdrawal, verifyWithdrawalEscrow])
  | rollbackWithdrawal => exact hother not_false (by simp [execWithdrawal, rollbackWithdrawal])
  | reverseWithdrawal => exact hother not_false (by simp [execWithdrawal, reverseWithdrawal])
  | batchWithdraw | setWithdrawalSchedule | executeScheduledWithdrawal =>
      simp [Call.footprint, WithdrawalCall.footprint] at harea

/-! ## Runs -/

/-- The stored request is the last one of the history, with the approvals it got, and was not
paid yet. -/
def RequestFollows (id : Nat) (ks : List Event) (s : State) : Prop :=
  ∀ req, s.get (.withdrawalApprovalRequest id) = some req →
    ∃ r, lastRound id ks = some r ∧ timesPaid id ks = 0 ∧
      s.get (.withdrawalApprovers id) = some r.approvers ∧
      (r.requiredApprovals = req.requiredApprovals ∧ r.approvals = req.approvals ∧
        r.expiresAt = req.expiresAt) ∧
      r.approvals.Nodup ∧ ∀ a ∈ r.approvals, a ∈ r.approvers

theorem rounds_of_not (hc : ¬ c.OnRequest id) :
    lastRound id (.call e c :: ks) = lastRound id ks ∧
      timesPaid id (.call e c :: ks) = timesPaid id ks := by
  cases c with
  | withdrawal o =>
      cases o with
      | requestWithdrawalApproval | approveWithdrawal | executeApprovedWithdrawal =>
          unfold Call.OnRequest at hc
          simp [lastRound, timesPaid, hc]
      | _ => exact ⟨rfl, rfl⟩
  | _ => exact ⟨rfl, rfl⟩

/-- A step lemma: the stored request goes on following the history. -/
theorem RequestFollows.next (h : RequestFollows id ks s) (heffect : RequestEffect e id s t c) :
    RequestFollows id (.call e c :: ks) t := by
  intro req hreq
  cases heffect with
  | kept hc hrequest happrovers =>
      obtain ⟨hround, hpaid⟩ := rounds_of_not hc
      rw [hround, hpaid, happrovers]
      exact h req (hrequest ▸ hreq)
  | requested hrequest happrovers =>
      obtain rfl := Option.some.inj (hrequest.symm.trans hreq)
      refine ⟨_, if_pos rfl, if_pos rfl, happrovers, ⟨rfl, rfl, rfl⟩, List.nodup_nil, ?_⟩
      exact fun _ ha => absurd ha List.not_mem_nil
  | approved hbefore hlist ha hnew hrequest happrovers =>
      obtain rfl := Option.some.inj (hrequest.symm.trans hreq)
      obtain ⟨r, hr, hpaid, has, ⟨hrequired, happrovals, hexpires⟩, hnodup, hown⟩ := h _ hbefore
      obtain rfl := Option.some.inj (hlist.symm.trans has)
      refine ⟨_, (if_pos rfl).trans (congrArg _ hr), hpaid, happrovers,
        ⟨hrequired, congrArg (· ++ _) happrovals, hexpires⟩, ?_, ?_⟩
      · have hconcat := hnodup.concat (happrovals ▸ hnew)
        rwa [List.concat_eq_append] at hconcat
      · intro b hb
        rcases List.mem_append.mp hb with hold | hlast
        · exact hown b hold
        · exact List.mem_singleton.mp hlast ▸ ha
  | paid _ _ hrequest => cases hrequest.symm.trans hreq

/-- The run lemma. -/
theorem requestFollows_of_run {w₀ w : World} (h₀ : Genesis w₀) (hrun : Run Step w₀ ks w) :
    RequestFollows id ks w.state := by
  refine history_of_run (I := fun ks w => RequestFollows id ks w.state) h₀ hrun ?_ ?_ ?_
  · intro req hreq
    simp [h₀.get (k := .withdrawalApprovalRequest id) (by simp)] at hreq
  · exact fun hnum hI _ hexec => hI.next (exec_request hnum hexec)
  · exact fun _ hI => hI

end Requests

/-- In every run, a payment of vault `id` is one of its last request, approved by enough
distinct addresses of its own list and not paid before. It is live exactly if the request has
not expired and the vault is locked. -/
theorem approved_withdrawal_live_iff {w₀ w w' : World} {ks : List Event} {e : Env} {id : Nat}
    (h₀ : Genesis w₀) (hrun : Run Step w₀ ks w)
    (hstep : Step w (.call e (.withdrawal (.executeApprovedWithdrawal id))) w') :
    PaysLive id ks e w.state ↔
      (w.state.get (.withdrawalApprovalRequest id)).all (e.timestamp ≤ ·.expiresAt) = true ∧
        (w.state.vault id).any (·.status = .locked) = true := by
  cases hstep with
  | call _ hexec =>
      obtain ⟨req, hreq, henough⟩ : ∃ req, w.state.get (.withdrawalApprovalRequest id) = some req ∧
          req.requiredApprovals ≤ req.approvals.length := by
        cases executeApprovedWithdrawal_effect _ _ hexec with
        | kept hc => exact absurd rfl hc
        | paid hbefore henough => exact ⟨_, hbefore, henough⟩
      obtain ⟨r, hr, hpaid, -, ⟨hrequired, happrovals, hexpires⟩, hnodup, hown⟩ :=
        requestFollows_of_run h₀ hrun req hreq
      have happroved : r.Approved := ⟨hnodup, hown, by rwa [hrequired, happrovals]⟩
      have hround : PaysLive id ks e w.state ↔ e.timestamp ≤ req.expiresAt ∧
          ∃ v, w.state.vault id = some v ∧ v.status = .locked := by
        constructor
        · rintro ⟨r', hr', -, -, htime, hv⟩
          obtain rfl := Option.some.inj (hr.symm.trans hr')
          exact ⟨hexpires ▸ htime, hv⟩
        · exact fun ⟨htime, hv⟩ => ⟨r, hr, hpaid, happroved, hexpires ▸ htime, hv⟩
      simp only [hround, hreq, Option.all_some, Option.any_eq_true, decide_eq_true_eq]

/-- Two approvals of a list of three are enough for a payment in time. -/
theorem approved_withdrawal_live_two : ∃ (w₀ w w' : World) (ks : List Event), Genesis w₀ ∧
    Run Step w₀ ks w ∧ Step w (.call (signedBy [] 9)
      (.withdrawal (.executeApprovedWithdrawal 1))) w' ∧ PaysLive 1 ks (signedBy [] 9) w.state := by
  have hplay : (play (initialised ⟨8⟩ ⟨9⟩)
      [opensVault 100, paysIn 100,
        (signedBy [⟨1⟩] 1, .withdrawal (.requestWithdrawalApproval 1 ⟨1⟩ 60 [⟨5⟩, ⟨6⟩, ⟨7⟩] 2)),
        (signedBy [⟨7⟩] 2, .withdrawal (.approveWithdrawal 1 ⟨7⟩)),
        (signedBy [⟨5⟩] 3, .withdrawal (.approveWithdrawal 1 ⟨5⟩))]).any (fun w =>
      (w.state.get (.withdrawalApprovalRequest 1)).all (9 ≤ ·.expiresAt) = true ∧
        (w.state.vault 1).any (·.status = .locked) = true ∧
      (play w [(signedBy [] 9, .withdrawal (.executeApprovedWithdrawal 1))]).isSome) = true := by
    decide +kernel
  simp only [Option.any_eq_true, decide_eq_true_eq, Option.isSome_iff_exists] at hplay
  obtain ⟨w, hw, htime, hlocked, w', hw'⟩ := hplay
  have hgenesis : Genesis (initialised ⟨8⟩ ⟨9⟩) := genesis_initialised (by decide) (by decide)
  refine ⟨_, w, w', _, hgenesis, run_of_play hw, step_of_play hw', ?_⟩
  refine (approved_withdrawal_live_iff hgenesis (run_of_play hw) (step_of_play hw')).mpr ⟨htime, ?_⟩
  simpa [Option.any_eq_true] using hlocked

/-- A request is paid a week and a second after it was made, and another one out of a vault
that was released to its heirs. -/
theorem stale_request_paid : (∃ w w' : World, Reachable w ∧
      Step w (.call (signedBy [] 604802) (.withdrawal (.executeApprovedWithdrawal 1))) w' ∧
      (w.state.get (.withdrawalApprovalRequest 1)).any (·.expiresAt = 604801) = true) ∧
    ∃ w w' : World, Reachable w ∧
      Step w (.call (signedBy [] 300) (.withdrawal (.executeApprovedWithdrawal 1))) w' ∧
      (w.state.vault 1).any (·.status = .released) = true ∧ w'.state.balance 1 = 40 := by
  have hlate : (play (initialised ⟨8⟩ ⟨9⟩)
      [opensVault 100, paysIn 100,
        (signedBy [⟨1⟩] 1, .withdrawal (.requestWithdrawalApproval 1 ⟨1⟩ 60 [⟨5⟩] 1)),
        (signedBy [⟨5⟩] 2, .withdrawal (.approveWithdrawal 1 ⟨5⟩))]).any (fun w =>
      (w.state.get (.withdrawalApprovalRequest 1)).any (·.expiresAt = 604801) = true ∧
      (play w [(signedBy [] 604802, .withdrawal (.executeApprovedWithdrawal 1))]).isSome) =
        true := by decide +kernel
  have hreleased : (play (initialised ⟨8⟩ ⟨9⟩)
      [opensVault 100, paysIn 100,
        (signedBy [⟨1⟩] 0, .vesting (.setVestingSchedule 1 ⟨1⟩ 10 10 1 100 0)),
        (signedBy [⟨1⟩] 1, .withdrawal (.requestWithdrawalApproval 1 ⟨1⟩ 60 [⟨5⟩] 1)),
        (signedBy [⟨5⟩] 2, .withdrawal (.approveWithdrawal 1 ⟨5⟩)),
        (signedBy [⟨7⟩] 200, .release (.triggerRelease 1))]).any (fun w =>
      (w.state.vault 1).any (·.status = .released) = true ∧
      (play w [(signedBy [] 300, .withdrawal (.executeApprovedWithdrawal 1))]).any
        fun w' => w'.state.balance 1 = 40) = true := by decide +kernel
  simp only [Option.any_eq_true, decide_eq_true_eq, Option.isSome_iff_exists] at hlate hreleased
  obtain ⟨w, hw, hexpires, w', hw'⟩ := hlate
  obtain ⟨u, hu, hstatus, u', hu', hleft⟩ := hreleased
  refine ⟨⟨w, w', reachable_of_play hw, step_of_play hw', ?_⟩,
    u, u', reachable_of_play hu, step_of_play hu', ?_, hleft⟩
  · simpa [Option.any_eq_true] using hexpires
  · simpa [Option.any_eq_true] using hstatus

end Heirloom
