import Mathlib.Data.List.Chain
import Heirloom.System

/-!
# Scheduled withdrawals and the delegated role

The owner plans withdrawals to the beneficiary; the beneficiary may pass the role
on, and who gets it may pass it on again. What is paid should follow the role.

* `scheduled_withdrawal_pays`: of every run, a scheduled withdrawal pays the last of
  the chain that starts at the current beneficiary, along links that were signed by
  whoever passed the role on, each entry once and when it is due, exactly if the
  beneficiary has not passed the role on.
* `delegate_unpaid`: a beneficiary delegates and is paid all the same. The delegation
  is stored as a chain, the payout looks for a single delegate that nobody stores.
-/

namespace Heirloom

open Transaction Runs

/-! ## The chain of delegates -/

/-- The chain from `b` on. It is `b` alone if `b` is not in the chain. -/
def chainFrom (b : Address) : List Address → List Address
  | [] => [b]
  | a :: rest => if a = b then a :: rest else chainFrom b rest

section Chains

variable {b : Address} {l : List Address}

theorem isChain_chainFrom {R : Address → Address → Prop} (h : l.IsChain R) :
    (chainFrom b l).IsChain R := by
  induction l with
  | nil => simp [chainFrom]
  | cons a rest ih =>
      unfold chainFrom
      split
      · exact h
      · exact ih h.tail

/-- The chain ends at its start if nobody comes after it. -/
theorem getLastD_chainFrom (h : l.Nodup) :
    (chainFrom b l).getLastD b = b ↔ ¬ ∃ a, [b, a] <:+: l := by
  induction l with
  | nil => simp [chainFrom]
  | cons a rest ih =>
      obtain ⟨ha, hrest⟩ := List.nodup_cons.mp h
      unfold chainFrom
      split
      · next hab =>
          subst hab
          cases rest with
          | nil => simp [List.infix_cons_iff]
          | cons c rest =>
              refine iff_of_false (fun heq => ha ?_) fun hnone => hnone ⟨c, [], rest, rfl⟩
              have hlast : rest.getLastD c ∈ c :: rest := List.getLastD_mem_cons
              rw [List.getLastD_cons, List.getLastD_cons] at heq
              rwa [heq] at hlast
      · next hab =>
          rw [ih hrest]
          refine not_congr (exists_congr fun c => ?_)
          simp [List.infix_cons_iff, Ne.symm hab]

end Chains

/-- The stored chain of vault `id`: everybody in it has passed the role on to the next. -/
def State.chain (s : State) (id : Nat) : List Address :=
  (s.get (.beneficiaryDelegationChain id)).getD []

/-- The end of the chain that starts at `b`. -/
def State.heir (s : State) (id : Nat) (b : Address) : Address :=
  (chainFrom b (s.chain id)).getLastD b

/-- `b` has passed the role on. -/
def State.HasDelegated (s : State) (id : Nat) (b : Address) : Prop :=
  ∃ a, [b, a] <:+: s.chain id

/-- Somebody has passed the role on to `b` with the signature of `a`. -/
def Delegates (ks : List Event) (id : Nat) (a b : Address) : Prop :=
  ∃ e, .call e (.heir (.delegateBeneficiaryRole id b)) ∈ ks ∧ e.authorized a = true

/-- What is stored about delegations. The single delegate is never stored. -/
structure ChainKept (ks : List Event) (s : State) (id : Nat) : Prop where
  unset : s.get (.beneficiaryDelegate id) = none
  nodup : (s.chain id).Nodup
  signed : (s.chain id).IsChain (Delegates ks id)

section Delegations

variable {e : Env} {s t : State} {id : Nat} {c : Call} {ks : List Event}

theorem Delegates.later {k : Event} {a b : Address} (h : Delegates ks id a b) :
    Delegates (k :: ks) id a b := by
  obtain ⟨e, hmem, hsigned⟩ := h
  exact ⟨e, .tail _ hmem, hsigned⟩

theorem ChainKept.later {k : Event} (h : ChainKept ks s id) (hsame : ∀ k : DataKey,
    k.area = .delegations → k.vaultId? = some id → t.get k = s.get k) : ChainKept (k :: ks) t id := by
  have hchain : t.chain id = s.chain id := by
    simp [State.chain, hsame (.beneficiaryDelegationChain id) rfl rfl]
  refine ⟨(hsame (.beneficiaryDelegate id) rfl rfl).trans h.unset, hchain ▸ h.nodup, ?_⟩
  rw [hchain]
  exact h.signed.imp fun _ _ hsigned => hsigned.later

/-- Delegations are written by one call. -/
theorem Call.delegations_writer (h : .delegations ∈ (c.footprint s).areas) :
    ∃ id a, c = .heir (.delegateBeneficiaryRole id a) := by
  cases c with
  | heir c => cases c <;> simp [Call.footprint, HeirCall.footprint] at h ⊢
  | _ => simpa [Call.areas] using Call.mem_areas h

/-- The role is passed on by the last of the chain. -/
theorem delegateBeneficiaryRole_spec {a : Address} :
    wp (delegateBeneficiaryRole id a) (fun _ t => ∃ v chain last, s.vault id = some v ∧
      (s.chain id = chain ∨ s.chain id = [] ∧ chain = [v.beneficiary]) ∧
      chain.getLast? = some last ∧ e.authorized last = true ∧ a ∉ chain ∧
      t = s.put (.beneficiaryDelegationChain id) (chain ++ [a])) e s := by
  simp only [delegateBeneficiaryRole, Tx.wp_bind, wp_assertNotPaused, wp_loadVault, wp_storageGet,
    Tx.wp_fromSome, wp_requireAuth, wp_require, wp_storageSet]
  intro _ v hv last hlast hsigned hfresh
  refine ⟨v, _, last, hv, ?_, hlast, hsigned, hfresh, rfl⟩
  cases hchain : s.get (.beneficiaryDelegationChain id) with
  | none => exact .inr ⟨by simp [State.chain, hchain], rfl⟩
  | some chain => exact .inl (by simp [State.chain, hchain])

/-- One call keeps the chain of every vault. -/
theorem chain_call (hnum : s.Numbered) (h : ChainKept ks s id) (hexec : exec c e s = .ok ((), t)) :
    ChainKept (.call e c :: ks) t id := by
  have hframe : Frame (c.footprint s) s t := exec_frame c hnum _ _ hexec
  by_cases hin : .delegations ∈ (c.footprint s).areas ∧ id ∈ (c.footprint s).vaults
  swap
  · refine h.later fun k harea hvault => ?_
    obtain hno | hno := not_and_or.mp hin
    · exact hframe.get_of_area (by simpa [harea] using hno)
    · exact hframe.get_of_vault hvault hno
  obtain ⟨i, a, rfl⟩ := Call.delegations_writer hin.1
  obtain rfl : id = i := by simpa [Call.footprint, HeirCall.footprint] using hin.2
  obtain ⟨v, chain, last, -, hchain, hlast, hsigned, hfresh, rfl⟩ :=
    delegateBeneficiaryRole_spec _ _ hexec
  obtain ⟨hnodup, hlinks⟩ : chain.Nodup ∧ chain.IsChain (Delegates ks id) := by
    obtain rfl | ⟨-, rfl⟩ := hchain
    · exact ⟨h.nodup, h.signed⟩
    · simp
  refine ⟨by simpa using h.unset, ?_, ?_⟩
  · simpa [State.chain, List.nodup_append] using ⟨hnodup, fun x hx he => hfresh (he ▸ hx)⟩
  · have happend : (chain ++ [a]).IsChain
        (Delegates (.call e (.heir (.delegateBeneficiaryRole id a)) :: ks) id) := by
      refine (hlinks.imp fun _ _ hlink => hlink.later).append (.singleton a) fun x hx y hy => ?_
      obtain rfl := Option.some.inj (hlast.symm.trans hx)
      obtain rfl : a = y := by simpa using hy
      exact ⟨e, .head _, hsigned⟩
    simpa [State.chain] using happend

end Delegations

theorem chain_of_run {w₀ w : World} {ks : List Event} (h₀ : Genesis w₀) (hrun : Run Step w₀ ks w)
    (id : Nat) : ChainKept ks w.state id := by
  refine history_of_run (I := fun ks w => ChainKept ks w.state id) h₀ hrun ?_
    (fun hnum hI _ hexec => chain_call hnum hI hexec) fun l hI => hI.later fun _ _ _ => rfl
  refine ⟨h₀.get (by simp), ?_, ?_⟩ <;>
    simp [State.chain, h₀.get (k := .beneficiaryDelegationChain id) (by simp)]

/-! ## Paying the schedule -/

/-- The withdrawals that are planned for vault `id`. -/
def State.schedule (s : State) (id : Nat) : List WithdrawalScheduleEntry :=
  (s.get (.withdrawalSchedule id)).getD []

/-- The entry is to be paid at `now`. -/
def WithdrawalScheduleEntry.Due (entry : WithdrawalScheduleEntry) (now : Nat) : Prop :=
  entry.timestamp ≤ now ∧ 0 < entry.amount

instance (entry : WithdrawalScheduleEntry) (now : Nat) : Decidable (entry.Due now) :=
  inferInstanceAs (Decidable (_ ∧ _))

/-- The entry after a payout at `now`. -/
def WithdrawalScheduleEntry.struck (now : Nat) (entry : WithdrawalScheduleEntry) :
    WithdrawalScheduleEntry :=
  if entry.Due now then ⟨entry.timestamp, 0⟩ else entry

/-- One transfer to `payee` for each entry that is due. -/
def dueLog (token payee : Address) (now : Nat) (schedule : List WithdrawalScheduleEntry) : Log :=
  (schedule.filter (·.Due now)).map fun entry => outgoing token payee entry.amount

section Payouts

variable {e : Env} {s t : State} {id : Nat} {v : Vault} {c : Call}

/-- Where the code sends what is due. -/
def State.payee (s : State) (id : Nat) (v : Vault) : Address :=
  (s.get (.beneficiaryDelegate id)).getD v.beneficiary

theorem executeScheduleEntry_pays {acc : ScheduleProgress} {entry : WithdrawalScheduleEntry} :
    wp (executeScheduleEntry id v acc entry) (fun acc' t =>
      t = s.transferAll (dueLog v.tokenAddress (s.payee id v) e.timestamp [entry]) ∧
      acc'.entries = acc.entries ++ [entry.struck e.timestamp] ∧
      (acc'.executed = true ↔ acc.executed = true ∨ entry.Due e.timestamp)) e s := by
  simp only [executeScheduleEntry, getDelegatedBeneficiary, Tx.wp_bind, wp_timestamp, Tx.wp_ite,
    wp_require, wp_storageGet, wp_transfer, wp_i128, Tx.wp_pure]
  refine ⟨fun hdue _ _ _ => ?_, fun hdue => ?_⟩
  · have hdue' : entry.Due e.timestamp := hdue
    simp [dueLog, WithdrawalScheduleEntry.struck, hdue', State.payee, State.pay_eq_transferAll]
  · have hdue' : ¬ entry.Due e.timestamp := hdue
    simp [dueLog, WithdrawalScheduleEntry.struck, hdue']

/-- The loop pays what is due, in the order of the schedule, and strikes it. -/
theorem scheduleLoop_pays {acc : ScheduleProgress} {schedule : List WithdrawalScheduleEntry} :
    wp (foldEach schedule acc (executeScheduleEntry id v)) (fun acc' t =>
      t = s.transferAll (dueLog v.tokenAddress (s.payee id v) e.timestamp schedule) ∧
      acc'.entries = acc.entries ++ schedule.map (·.struck e.timestamp) ∧
      (acc'.executed = true ↔
        acc.executed = true ∨ ∃ entry ∈ schedule, entry.Due e.timestamp)) e s := by
  induction schedule generalizing acc s with
  | nil => simp [foldEach, dueLog]
  | cons entry rest ih =>
      simp only [foldEach, Tx.wp_bind]
      refine Tx.wp_mono executeScheduleEntry_pays ?_
      rintro acc₁ _ ⟨rfl, hentries, hexecuted⟩
      refine Tx.wp_mono ih ?_
      rintro acc₂ _ ⟨rfl, hentries', hexecuted'⟩
      refine ⟨?_, ?_, ?_⟩
      · rw [← State.transferAll_append]
        congr 1
        by_cases hdue : entry.Due e.timestamp <;> simp [dueLog, hdue, State.payee]
      · simp [hentries', hentries]
      · rw [hexecuted', hexecuted]
        simp [or_assoc]

/-- A scheduled withdrawal pays every entry that is due, of which there is one, and strikes
them. -/
theorem executeScheduledWithdrawal_pays :
    wp (executeScheduledWithdrawal id) (fun _ t => ∃ v, s.vault id = some v ∧
      t.ledger.log = s.ledger.log ++
        dueLog v.tokenAddress (s.payee id v) e.timestamp (s.schedule id) ∧
      t.schedule id = (s.schedule id).map (·.struck e.timestamp) ∧
      ∃ entry ∈ s.schedule id, entry.Due e.timestamp) e s := by
  simp only [executeScheduledWithdrawal, Tx.wp_bind, wp_assertNotPaused, wp_loadVault,
    wp_storageGet, Tx.wp_fromSome]
  intro _ v hv schedule hschedule
  refine Tx.wp_mono scheduleLoop_pays ?_
  rintro acc _ ⟨rfl, hentries, hexecuted⟩
  simp only [wp_require, wp_saveVault, wp_storageSet]
  intro hpaid
  have hstored : s.schedule id = schedule := by simp [State.schedule, hschedule]
  refine ⟨v, hv, ?_, ?_, ?_⟩
  · simp [hstored, TokenLedger.Ledger.log_transferAll]
  · simpa [State.schedule, hschedule] using hentries
  · rw [hstored]
    exact (hexecuted.mp hpaid).resolve_left (by simp)

/-- Schedules are written by two calls. -/
theorem Call.payouts_writer (h : .payouts ∈ (c.footprint s).areas) :
    (∃ id l, c = .withdrawal (.setWithdrawalSchedule id l)) ∨
    ∃ id, c = .withdrawal (.executeScheduledWithdrawal id) := by
  cases c with
  | withdrawal c => cases c <;> simp [Call.footprint, WithdrawalCall.footprint] at h ⊢
  | _ => simpa [Call.areas] using Call.mem_areas h

/-- An entry that is struck stays so until the schedule is set again. -/
theorem struck_call {i ts : Nat} (hnum : s.Numbered)
    (hset : ∀ l, c ≠ .withdrawal (.setWithdrawalSchedule id l))
    (hexec : exec c e s = .ok ((), t)) (h : (s.schedule id)[i]? = some ⟨ts, 0⟩) :
    (t.schedule id)[i]? = some ⟨ts, 0⟩ := by
  have hframe : Frame (c.footprint s) s t := exec_frame c hnum _ _ hexec
  by_cases hin : .payouts ∈ (c.footprint s).areas ∧ id ∈ (c.footprint s).vaults
  swap
  · have hsame : t.get (.withdrawalSchedule id) = s.get (.withdrawalSchedule id) := by
      obtain hno | hno := not_and_or.mp hin
      · exact hframe.get_of_area (by simpa using hno)
      · exact hframe.get_of_vault rfl hno
    rwa [State.schedule, hsame]
  obtain ⟨j, l, rfl⟩ | ⟨j, rfl⟩ := Call.payouts_writer hin.1
  · obtain rfl : id = j := by simpa [Call.footprint, WithdrawalCall.footprint] using hin.2
    exact absurd rfl (hset l)
  · obtain rfl : id = j := by simpa [Call.footprint, WithdrawalCall.footprint] using hin.2
    obtain ⟨v, -, -, hschedule, -⟩ := executeScheduledWithdrawal_pays _ _ hexec
    simp [hschedule, h, WithdrawalScheduleEntry.struck, WithdrawalScheduleEntry.Due]

theorem struck_run {w w' : World} {ls : List Event} {i ts : Nat} (hrun : Run Step w ls w')
    (hnum : w.state.Numbered)
    (hset : ∀ e l, .call e (.withdrawal (.setWithdrawalSchedule id l)) ∉ ls)
    (h : (w.state.schedule id)[i]? = some ⟨ts, 0⟩) :
    (w'.state.schedule id)[i]? = some ⟨ts, 0⟩ := by
  have hboth : w'.state.Numbered ∧
      ((∀ e l, .call e (.withdrawal (.setWithdrawalSchedule id l)) ∉ ls) →
        (w'.state.schedule id)[i]? = some ⟨ts, 0⟩) := by
    refine hrun.invariantHistory (I := fun ls w' => w'.state.Numbered ∧
      ((∀ e l, .call e (.withdrawal (.setWithdrawalSchedule id l)) ∉ ls) →
        (w'.state.schedule id)[i]? = some ⟨ts, 0⟩)) ⟨hnum, fun _ => h⟩ ?_
    rintro ls u k u' ⟨hu, hI⟩ hstep
    refine ⟨hstep.numbered hu, fun hset => ?_⟩
    have hold := hI fun e l hmem => hset e l (.tail _ hmem)
    cases hstep with
    | call _ hexec =>
        refine struck_call hu (fun l hc => ?_) hexec hold
        subst hc
        exact hset _ l (.head _)
    | tokens _ _ => exact hold
  exact hboth.2 hset

end Payouts

/-- What a scheduled withdrawal that leads from `w` to `w'` should have done. -/
structure PaysHeir (ks : List Event) (w : World) (now : Nat) (id : Nat) (v : Vault) (w' : World) :
    Prop where
  /-- One transfer for each entry that is due, to the end of the chain. -/
  payments : w'.state.ledger.log = w.state.ledger.log ++
    dueLog v.tokenAddress (w.state.heir id v.beneficiary) now (w.state.schedule id)
  /-- Every link of the chain was signed by whoever passed the role on. -/
  signed : (chainFrom v.beneficiary (w.state.chain id)).IsChain (Delegates ks id)
  /-- What was due is not paid again, as long as no new schedule is set. -/
  once : ∀ ls u, Run Step w' ls u →
    (∀ e l, .call e (.withdrawal (.setWithdrawalSchedule id l)) ∉ ls) →
    ∀ (i : Nat) (entry : WithdrawalScheduleEntry), (w.state.schedule id)[i]? = some entry →
      entry.Due now →
      (u.state.schedule id)[i]? = some ⟨entry.timestamp, 0⟩

/-- In every run, a scheduled withdrawal pays the last of the chain of delegates, every link
of which was signed, each entry once and when it is due, if and only if the current
beneficiary has not delegated. -/
theorem scheduled_withdrawal_pays {w₀ w w' : World} {ks : List Event} {e : Env} {id : Nat} {v : Vault}
    (h₀ : Genesis w₀) (hrun : Run Step w₀ ks w) (hv : w.state.vault id = some v)
    (hstep : Step w (.call e (.withdrawal (.executeScheduledWithdrawal id))) w') :
    PaysHeir ks w e.timestamp id v w' ↔ ¬ w.state.HasDelegated id v.beneficiary := by
  have hchain := chain_of_run h₀ hrun id
  have hnum' : w'.state.Numbered := numbered_of_run (hrun.next hstep) h₀
  cases hstep with
  | call _ hexec =>
      obtain ⟨v', hv', hlog, hschedule, entry, hentry, hdue⟩ :=
        executeScheduledWithdrawal_pays _ _ hexec
      obtain rfl := Option.some.inj (hv.symm.trans hv')
      have hpayee : w.state.payee id v = v.beneficiary := by simp [State.payee, hchain.unset]
      rw [hpayee] at hlog
      refine Iff.trans ⟨fun h => ?_, fun hheir => ?_⟩ (getLastD_chainFrom hchain.nodup)
      · -- the entry that is due tells the two payees apart
        have hsame := List.append_cancel_left (hlog.symm.trans h.payments)
        have hmem : outgoing v.tokenAddress v.beneficiary entry.amount ∈
            dueLog v.tokenAddress v.beneficiary e.timestamp (w.state.schedule id) :=
          List.mem_map_of_mem (List.mem_filter.mpr ⟨hentry, decide_eq_true hdue⟩)
        rw [hsame] at hmem
        obtain ⟨_, -, heq⟩ := List.mem_map.mp hmem
        exact congrArg (·.dest) heq
      · refine ⟨?_, isChain_chainFrom hchain.signed, fun ls u hls hset i entry hi hentry => ?_⟩
        · rw [hlog, State.heir, hheir]
        · refine struck_run hls hnum' hset ?_
          simp [hschedule, hi, WithdrawalScheduleEntry.struck, hentry]

/-- The beneficiary has not delegated and is paid. -/
theorem scheduled_withdrawal_pays_beneficiary : ∃ w w' : World, ∃ ks v,
    Reachable w ∧ w.state.vault 1 = some v ∧ v.beneficiary = ⟨2⟩ ∧
      Step w (.call (signedBy [] 5) (.withdrawal (.executeScheduledWithdrawal 1))) w' ∧
        PaysHeir ks w 5 1 v w' := by
  have hplay : (play (initialised ⟨8⟩ ⟨9⟩)
      [opensVault 100, paysIn 50,
        (signedBy [⟨1⟩] 0, .withdrawal (.setWithdrawalSchedule 1 [(5, 10), (7, 20)]))]).any (fun w =>
      (play w [(signedBy [] 5, .withdrawal (.executeScheduledWithdrawal 1))]).any fun _ =>
        (w.state.vault 1).any fun v =>
          decide (v.beneficiary = ⟨2⟩) && decide (w.state.chain 1 = [])) = true := by
    decide +kernel
  obtain ⟨w, hw, hplay⟩ := (Option.any_eq_true _ _).mp hplay
  obtain ⟨w', hw', hchecks⟩ := (Option.any_eq_true _ _).mp hplay
  simp only [Bool.and_eq_true, Option.any_eq_true, decide_eq_true_eq] at hchecks
  obtain ⟨v, hv, hben, hchain⟩ := hchecks
  have hnone : ¬ w.state.HasDelegated 1 v.beneficiary := by simp [State.HasDelegated, hchain]
  exact ⟨w, w', _, v, reachable_of_play hw, hv, hben, step_of_play hw',
    (scheduled_withdrawal_pays (genesis_initialised (by decide) (by decide)) (run_of_play hw) hv
      (step_of_play hw')).mpr hnone⟩

/-- The beneficiary delegates to somebody else, and is paid all the same. -/
theorem delegate_unpaid : ¬ ∀ (w₀ w w' : World) (ks : List Event) (e : Env) (id : Nat) (v : Vault),
    Genesis w₀ → Run Step w₀ ks w → w.state.vault id = some v →
    Step w (.call e (.withdrawal (.executeScheduledWithdrawal id))) w' →
    PaysHeir ks w e.timestamp id v w' := by
  have hplay : (play (initialised ⟨8⟩ ⟨9⟩)
      [opensVault 100, paysIn 50,
        (signedBy [⟨1⟩] 0, .withdrawal (.setWithdrawalSchedule 1 [(5, 10), (7, 20)])),
        (signedBy [⟨2⟩] 0, .heir (.delegateBeneficiaryRole 1 ⟨3⟩))]).any (fun w =>
      (play w [(signedBy [] 5, .withdrawal (.executeScheduledWithdrawal 1))]).any fun w' =>
        (w.state.vault 1).any fun v => decide (w'.state.ledger.log ≠ w.state.ledger.log ++
          dueLog v.tokenAddress (w.state.heir 1 v.beneficiary) 5 (w.state.schedule 1))) = true := by
    decide +kernel
  obtain ⟨w, hw, hplay⟩ := (Option.any_eq_true _ _).mp hplay
  obtain ⟨w', hw', hchecks⟩ := (Option.any_eq_true _ _).mp hplay
  simp only [Option.any_eq_true, decide_eq_true_eq] at hchecks
  obtain ⟨v, hv, hunpaid⟩ := hchecks
  intro h
  exact hunpaid (h _ w w' _ _ 1 v (genesis_initialised (by decide) (by decide)) (run_of_play hw) hv
    (step_of_play hw')).payments

end Heirloom
