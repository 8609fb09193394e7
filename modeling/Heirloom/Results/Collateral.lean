import Heirloom.Results.Releases
import Heirloom.Results.WithdrawalGuards
import Mathlib.Algebra.BigOperators.Group.Finset.Basic

/-!
# Collateral

A vault backs a loan with a position of its own, which no other operation looks at: not
the calls that take from the balance, nor the next position. The ratio of a position is
compared with 100%, but not with the loan.

* `collateral_locked`: what calls have to leave alone for positions and loans to stay
  what they were accepted as, for each call, and that in every run of such calls every
  active position is covered by the balance and covers its loan.
* `collateral_withdrawn`: a position that does not cover its loan, the withdrawal of the
  collateral, and a position and a loan overwritten.
-/

namespace Heirloom

open Transaction Runs

/-- Vault `id` has an active position: a collateral that neither its release nor a liquidation has
ended. -/
def State.Pledged (s : State) (id : Nat) (p : TokenCollateral) : Prop :=
  s.get (.tokenCollateral id) = some p ∧ p.active = true

/-- Tokens of vault `id` are lent to a borrower, who has not repaid them yet. -/
def State.Lent (s : State) (id : Nat) (l : TokenLending) : Prop :=
  s.get (.tokenLending id) = some l ∧ l.repaid = false

/-- The collateral is worth the loan at the ratio of the position, which is given in basis points.
-/
def TokenCollateral.Covers (p : TokenCollateral) : Prop :=
  p.loanAmount * p.collateralRatioBps ≤ p.collateralAmount * 10000

/-- The balance of a vault, zero if there is none. -/
def State.balance (s : State) (id : Nat) : Int := ((s.vault id).map (·.balance)).getD 0

/-- The calls that take from the balance of a vault on behalf of its owner, and its
release. -/
def Call.Takes : Call → Prop
  | .withdrawal (.withdraw _ _ _) | .withdrawal (.batchWithdraw _ _ _)
  | .withdrawal (.partialLiquidate _ _ _) | .vault (.mergeVaults _ _ _)
  | .vault (.cancelVault _ _) | .release (.triggerRelease _) => True
  | _ => False

/-- What the release of vault `id` takes from its balance. -/
def State.releasePayout (s : State) (e : Env) (id : Nat) : Int :=
  (s.vault id).elim 0 fun v =>
    if s.acceptanceLapsed id e.timestamp then v.balance
    else if s.vests id (v.rotated e s id) then 0
    else v.releaseAmount

/-- What a call takes from the balance of vault `i`; the target of a merge gains. -/
def Call.taken (s : State) (e : Env) (c : Call) (i : Nat) : Int :=
  match c with
  | .vault (.cancelVault id _) => if i = id then s.balance id else 0
  | .vault (.mergeVaults target sources _) =>
      if i = target then -(∑ j ∈ sources.toFinset, s.balance j)
      else if i ∈ sources then s.balance i else 0
  | .release (.triggerRelease id) => if i = id then s.releasePayout e id else 0
  | c => (c.payments i).sum

/-- Taking `amount` from vault `id` leaves the collateral in place: a balance that covers the
collateral of an active position still does afterwards. -/
def State.Keeps (s : State) (id : Nat) (amount : Int) : Prop :=
  ∀ p, s.Pledged id p → p.collateralAmount ≤ s.balance id →
    amount ≤ s.balance id - p.collateralAmount

/-- The calls that lock collateral: a position covers its loan, neither it nor a loan
replaces another that is open, and what a call takes leaves the collateral in place. -/
def State.Locks (s : State) (e : Env) : Call → Prop
  | .lending (.setTokenCollateral id _ x l r) => l * r ≤ x * 10000 ∧
      ∀ p, s.Pledged id p → p = ⟨id, x, l, r, true, e.timestamp⟩
  | .lending (.enableTokenLending id _ b x r d) => ∀ l, s.Lent id l →
      l = ⟨id, b, x, r, e.timestamp, saturatingAdd64 e.timestamp d, false, 0⟩
  | c => c.Takes → ∀ i, s.Keeps i (c.taken s e i)

/-- The other calls that may lower a balance do not touch a vault with a position. -/
def State.SparesPledged (s : State) : Call → Prop
  | .vault (.deposit _ _ _) | .vault (.batchDeposit _ _)
  | .withdrawal (.rollbackWithdrawal _ _ _) => True
  | c => c.Takes ∨ (.balance ∈ (c.footprint s).parts →
      ∀ id ∈ (c.footprint s).vaults, ∀ p, ¬ s.Pledged id p)

/-- The call leaves collateral and loans what they are: a position that it accepts covers
its loan, what it takes leaves the collateral in place, and only the calls that end a
position or a loan change one that is open. -/
structure Secures (s : State) (c : Call) (t : State) : Prop where
  accepted : ∀ id a x l r, c = .lending (.setTokenCollateral id a x l r) →
    ∃ p, t.get (.tokenCollateral id) = some p ∧ p.Covers
  covered : c.Takes → ∀ id p, s.Pledged id p → p.collateralAmount ≤ s.balance id →
    p.collateralAmount ≤ t.balance id
  pledged : ∀ id p, s.Pledged id p → (∀ a, c ≠ .lending (.releaseTokenCollateral id a)) →
    t.get (.tokenCollateral id) = some p
  lent : ∀ id l, s.Lent id l → (∀ a, c ≠ .lending (.repayTokenLoan id a)) →
    t.get (.tokenLending id) = some l

/-- Every active position is secured: its collateral is positive, covered by the balance of the
vault, and covers the loan at the ratio agreed. -/
def State.Secured (s : State) : Prop :=
  ∀ id p, s.Pledged id p →
    p.Covers ∧ 0 < p.collateralAmount ∧ p.collateralAmount ≤ s.balance id

section Balances

variable {e : Env} {s t u : State} {c : Call} {id i : Nat} {v w : Vault} {log : Log}

theorem balance_of_vault (h : s.vault id = some v) : s.balance id = v.balance := by
  simp [State.balance, h]

theorem balance_put_vault :
    (s.put (.vault id) v).balance i = if i = id then v.balance else s.balance i := by
  unfold State.balance
  split
  · next heq =>
    subst heq
    simp
  · next hne => simp [hne]

theorem Transacts.balance (h : Transacts id v w log s t) (i : Nat) :
    t.balance i = s.balance i - if i = id then v.balance - w.balance else 0 := by
  unfold State.balance
  rw [h.after]
  split
  · next heq =>
    subst heq
    simp [h.before]
  · simp

/-- One payment of `x`. -/
theorem Transacts.balance_paid {x : Int}
    (h : Transacts id v (v.withBalance (v.balance - x)) log s t) (i : Nat) :
    t.balance i = s.balance i - (if id = i then [x] else []).sum := by
  rw [h.balance i]
  by_cases heq : i = id
  · simp [heq]
  · simp [heq, Ne.symm heq]

theorem Frame.balance {f : Footprint} (h : Frame f s t) (hb : .balance ∉ f.parts)
    (hv : s.vault id ≠ none) : t.balance id = s.balance id := by
  obtain ⟨v, hv⟩ := Option.ne_none_iff_exists'.mp hv
  obtain ⟨w, hw, hagree⟩ := h.kept id v hv
  rw [balance_of_vault hw, balance_of_vault hv]
  exact hagree.balance.resolve_left hb

/-! ## What a call takes -/

/-- Every round of a batch takes its amount. -/
theorem applyBatch_balance {token : Address} {items : List (Nat × Int)} :
    wp (forEach items (applyBatchWithdrawal token)) (fun _ t => ∀ i, t.balance i =
      s.balance i - ((items.filter fun item => item.1 = i).map (·.2)).sum) e s := by
  induction items generalizing s with
  | nil => simp [forEach]
  | cons item items ih =>
      rw [forEach, Tx.wp_bind]
      refine Tx.wp_mono applyBatchWithdrawal_spec ?_
      rintro _ u ⟨v, htx, -⟩
      refine Tx.wp_mono ih fun _ t ht i => ?_
      rw [ht i, htx.balance i]
      by_cases heq : item.1 = i
      · simp [heq]
        omega
      · simp [heq, Ne.symm heq]

theorem batchWithdraw_balance {ids : List Nat} {amounts : List Int} {caller : Address} :
    wp (batchWithdraw ids amounts caller) (fun _ t => ∀ i, t.balance i = s.balance i -
      (((ids.zip amounts).filter fun item => item.1 = i).map (·.2)).sum) e s := by
  simp only [batchWithdraw, Tx.wp_bind, wp_loadPaused, wp_require, wp_requireAuth]
  intro _ _ _
  refine Tx.wp_mono validateBatch_spec ?_
  rintro _ t ⟨rfl, -⟩
  simp only [wp_loadToken]
  exact fun token _ => applyBatch_balance

/-- The sources of a merge are drained once each. -/
theorem drainSources_balance {sources : List Nat} {balance : Int} :
    wp (foldEach sources balance drainMergeSource) (fun b t =>
      b = balance + ∑ j ∈ sources.toFinset, s.balance j ∧
        ∀ i, t.balance i = if i ∈ sources then 0 else s.balance i) e s := by
  induction sources generalizing s balance with
  | nil => simp [foldEach]
  | cons id sources ih =>
      rw [foldEach, Tx.wp_bind]
      refine Tx.wp_mono drainMergeSource_spec ?_
      rintro _ u ⟨v, htx, rfl⟩
      have hu : ∀ i, u.balance i = if i = id then 0 else s.balance i := by
        intro i
        rw [htx.balance i]
        split
        · next heq => simp [heq, balance_of_vault htx.before]
        · simp
      refine Tx.wp_mono ih ?_
      rintro b t ⟨rfl, ht⟩
      refine ⟨?_, fun i => ?_⟩
      · have hrest : ∑ j ∈ sources.toFinset, u.balance j =
            ∑ j ∈ sources.toFinset.erase id, s.balance j := by
          rw [← Finset.sum_erase sources.toFinset (show u.balance id = 0 by simp [hu])]
          refine Finset.sum_congr rfl fun j hj => ?_
          rw [hu, if_neg (Finset.ne_of_mem_erase hj)]
        rw [hrest, List.toFinset_cons,
          ← Finset.add_sum_erase _ _ (Finset.mem_insert_self id sources.toFinset),
          Finset.erase_insert_eq_erase, balance_of_vault htx.before, add_assoc]
      · rw [ht i, hu i]
        by_cases heq : i = id
        · simp [heq]
        · simp [heq]

theorem mergeVaults_balance {target : Nat} {sources : List Nat} {caller : Address} :
    wp (mergeVaults target sources caller) (fun _ t => ∀ i, t.balance i =
      s.balance i - (Call.vault (.mergeVaults target sources caller)).taken s e i) e s := by
  simp only [mergeVaults, Tx.wp_bind, wp_assertNotPaused, wp_loadLockedByOwner]
  intro _ _ v hv _ _
  refine Tx.wp_mono validateMergeSources_spec ?_
  rintro _ _ ⟨rfl, hsources⟩
  simp only [wp_loadVault, hv, Option.some.injEq, forall_eq']
  refine Tx.wp_mono drainSources_balance ?_
  rintro b t ⟨rfl, ht⟩
  simp only [wp_saveVault]
  intro i
  rw [balance_put_vault, Call.taken]
  split
  · next heq =>
    subst heq
    rw [balance_of_vault hv, sub_neg_eq_add]
    rfl
  · rw [ht]
    split <;> simp

/-- A release takes what its outcome pays. -/
theorem triggerRelease_balance (hbps : s.RotationSound e id) :
    wp (triggerRelease id) (fun _ t => ∀ i, t.balance i =
      s.balance i - if i = id then s.releasePayout e id else 0) e s := by
  intro _ t hexec i
  obtain ⟨v, hv, -, -, -, hrel⟩ := triggerReleaseInternal_spec hbps _ _ hexec
  obtain ⟨v', w, hstatus⟩ := triggerReleaseInternal_status _ _ hexec
  have hlapsed : ∀ {w log}, Transacts id v w log s t →
      (w.status = .cancelled ↔ s.acceptanceLapsed id e.timestamp) := by
    intro w' log htx
    have hw : t.vault id = some w' := by rw [htx.after, if_pos rfl]
    obtain rfl := Option.some.inj (hstatus.after.symm.trans hw)
    exact hstatus.cancelled
  unfold State.releasePayout
  rw [hv, Option.elim_some]
  cases hrel with
  | refunded _ _ htx _ =>
      rw [htx.balance i, if_pos ((hlapsed htx).mp rfl)]
      simp
  | vested hunpaid htx _ =>
      have hnot : ¬ s.acceptanceLapsed id e.timestamp := fun h => by
        cases (hlapsed htx).mpr h
      have hvests : s.vests id (v.rotated e s id) := by
        obtain ⟨x, hx, hvests⟩ := hunpaid.resolve_left hnot
        obtain rfl := Option.some.inj (hv.symm.trans hx)
        exact hvests
      rw [htx.balance i, if_neg hnot, if_pos hvests]
      simp [Vault.rotated]
  | paid log hnot htx _ _ _ =>
      have hvests : ¬ s.vests id (v.rotated e s id) := fun h => hnot (.inr ⟨v, hv, h⟩)
      have hleft : ((v.rotated e s id).released (v.balance - v.releaseAmount)).balance =
          v.balance - v.releaseAmount := rfl
      rw [htx.balance i, if_neg (fun h => hnot (.inl h)), if_neg hvests, hleft, sub_sub_cancel]

theorem exec_taken (hbps : ∀ id, s.RotationSound e id) (hc : c.Takes) :
    wp (exec c) (fun _ t => ∀ i, t.balance i = s.balance i - c.taken s e i) e s := by
  cases c with
  | vault o =>
      cases o with
      | mergeVaults => exact mergeVaults_balance
      | cancelVault id caller =>
          refine Tx.wp_mono cancelVault_spec ?_
          rintro _ t ⟨v, htx, -⟩ i
          rw [htx.balance i, Call.taken, balance_of_vault htx.before]
          simp
      | _ => exact hc.elim
  | withdrawal o =>
      cases o with
      | withdraw id caller amount =>
          refine Tx.wp_mono withdraw_spec ?_
          rintro _ t ⟨v, htx, -⟩ i
          exact htx.balance_paid i
      | partialLiquidate id amount percentage =>
          refine Tx.wp_mono partialLiquidate_spec ?_
          rintro _ t ⟨v, htx, -⟩ i
          exact htx.balance_paid i
      | batchWithdraw => exact batchWithdraw_balance
      | _ => exact hc.elim
  | release o =>
      cases o with
      | triggerRelease id => exact triggerRelease_balance (hbps id)
      | _ => exact hc.elim
  | _ => exact hc.elim

/-! ## Who writes a position -/

/-- Only the calls about loans write positions and loans. -/
theorem Call.lending_writer (h : .lending ∈ (c.footprint s).areas) : ∃ o, c = .lending o := by
  cases c with
  | lending c => exact ⟨c, rfl⟩
  | _ => simpa [Call.areas] using Call.mem_areas h

/-- What a call does to the position of vault `id`. -/
inductive CollateralEffect (e : Env) (s t : State) (id : Nat) : Call → Prop
  | kept {c : Call} (h : t.get (.tokenCollateral id) = s.get (.tokenCollateral id)) :
      CollateralEffect e s t id c
  | pledged {a : Address} {x l : Int} {r : Nat} (hpos : 0 < x) (hle : x ≤ s.balance id)
      (h : t.get (.tokenCollateral id) = some ⟨id, x, l, r, true, e.timestamp⟩) :
      CollateralEffect e s t id (.lending (.setTokenCollateral id a x l r))
  | ended {a : Address} {p : TokenCollateral}
      (h : t.get (.tokenCollateral id) = some { p with active := false }) :
      CollateralEffect e s t id (.lending (.releaseTokenCollateral id a))

theorem exec_collateral (hnum : s.Numbered) (hexec : exec c e s = .ok ((), t)) (id : Nat) :
    CollateralEffect e s t id c := by
  have hframe := exec_frame c hnum _ _ hexec
  by_cases hc : .lending ∈ (c.footprint s).areas
  · obtain ⟨o, rfl⟩ := Call.lending_writer hc
    cases o with
    | setTokenCollateral i a x l r =>
        obtain ⟨rfl, v, hv, hpos, hle, -⟩ := setTokenCollateral_spec _ _ hexec
        by_cases heq : id = i
        · subst heq
          exact .pledged hpos (hle.trans (balance_of_vault hv).ge) State.get_put_self
        · exact .kept (by simp [heq])
    | releaseTokenCollateral i a =>
        obtain ⟨p, -, -, rfl⟩ := releaseTokenCollateral_spec _ _ hexec
        by_cases heq : id = i
        · subst heq
          exact .ended State.get_put_self
        · exact .kept (by simp [heq])
    | enableTokenLending i a b x r d =>
        obtain ⟨rfl, -⟩ := enableTokenLending_spec _ _ hexec
        exact .kept (by simp)
    | repayTokenLoan i a =>
        simp only [exec, execLending, Tx.ok_bind, Tx.ok_pure] at hexec
        obtain ⟨x, _, hrepay, -, rfl⟩ := hexec
        obtain ⟨l, -, -, rfl⟩ := repayTokenLoan_spec _ _ hrepay
        exact .kept (by simp)
  · exact .kept (hframe.get_of_area (by simpa using hc))

/-- What a call does to the loan of vault `id`. -/
inductive LendingEffect (e : Env) (s t : State) (id : Nat) : Call → Prop
  | kept {c : Call} (h : t.get (.tokenLending id) = s.get (.tokenLending id)) :
      LendingEffect e s t id c
  | lent {a b : Address} {x : Int} {r d : Nat}
      (h : t.get (.tokenLending id) = some ⟨id, b, x, r, e.timestamp,
        saturatingAdd64 e.timestamp d, false, 0⟩) :
      LendingEffect e s t id (.lending (.enableTokenLending id a b x r d))
  | repaid {a : Address} : LendingEffect e s t id (.lending (.repayTokenLoan id a))

theorem exec_lending (hnum : s.Numbered) (hexec : exec c e s = .ok ((), t)) (id : Nat) :
    LendingEffect e s t id c := by
  have hframe := exec_frame c hnum _ _ hexec
  by_cases hc : .lending ∈ (c.footprint s).areas
  · obtain ⟨o, rfl⟩ := Call.lending_writer hc
    cases o with
    | enableTokenLending i a b x r d =>
        obtain ⟨rfl, -⟩ := enableTokenLending_spec _ _ hexec
        by_cases heq : id = i
        · subst heq
          exact .lent State.get_put_self
        · exact .kept (by simp [heq])
    | repayTokenLoan i a =>
        by_cases heq : id = i
        · subst heq
          exact .repaid
        · simp only [exec, execLending, Tx.ok_bind, Tx.ok_pure] at hexec
          obtain ⟨x, _, hrepay, -, rfl⟩ := hexec
          obtain ⟨l, -, -, rfl⟩ := repayTokenLoan_spec _ _ hrepay
          exact .kept (by simp [heq])
    | setTokenCollateral i a x l r =>
        obtain ⟨rfl, -⟩ := setTokenCollateral_spec _ _ hexec
        exact .kept (by simp)
    | releaseTokenCollateral i a =>
        obtain ⟨p, -, -, rfl⟩ := releaseTokenCollateral_spec _ _ hexec
        exact .kept (by simp)
  · exact .kept (hframe.get_of_area (by simpa using hc))

/-! ## What a call leaves of the collateral -/

/-- What a call takes leaves the collateral in place exactly if it locks collateral. -/
theorem covered_iff (hbps : ∀ id, s.RotationSound e id) (hexec : exec c e s = .ok ((), t)) :
    (c.Takes → ∀ id p, s.Pledged id p → p.collateralAmount ≤ s.balance id →
      p.collateralAmount ≤ t.balance id) ↔ (c.Takes → ∀ i, s.Keeps i (c.taken s e i)) := by
  refine forall_congr' fun hc => forall_congr' fun id => forall_congr' fun p => ?_
  refine forall_congr' fun _ => forall_congr' fun _ => ?_
  have ht := exec_taken hbps hc _ _ hexec id
  omega

theorem Secures.locks (hbps : ∀ id, s.RotationSound e id)
    (hexec : exec c e s = .ok ((), t)) (h : Secures s c t) : s.Locks e c := by
  have htaken := (covered_iff hbps hexec).mp h.covered
  cases c with
  | lending o =>
      cases o with
      | setTokenCollateral id a x l r =>
          obtain ⟨rfl, -⟩ := setTokenCollateral_spec _ _ hexec
          obtain ⟨p, hp, hcovers⟩ := h.accepted id a x l r rfl
          obtain rfl := Option.some.inj (State.get_put_self.symm.trans hp)
          refine ⟨hcovers, fun p hpledged => ?_⟩
          have hkept := h.pledged id p hpledged (by simp)
          exact (Option.some.inj (State.get_put_self.symm.trans hkept)).symm
      | enableTokenLending id a b x r d =>
          obtain ⟨rfl, -⟩ := enableTokenLending_spec _ _ hexec
          intro l hlent
          have hkept := h.lent id l hlent (by simp)
          exact (Option.some.inj (State.get_put_self.symm.trans hkept)).symm
      | _ => exact htaken
  | _ => exact htaken

theorem State.Locks.secures (hnum : s.Numbered) (hbps : ∀ id, s.RotationSound e id)
    (hexec : exec c e s = .ok ((), t)) (h : s.Locks e c) : Secures s c t := by
  constructor
  · rintro id a x l r rfl
    obtain ⟨rfl, -⟩ := setTokenCollateral_spec _ _ hexec
    exact ⟨_, State.get_put_self, h.1⟩
  · refine (covered_iff hbps hexec).mpr fun hc => ?_
    cases c with
    | lending o => exact hc.elim
    | _ => exact h hc
  · intro id p hp hother
    cases exec_collateral hnum hexec id with
    | kept hkept => exact hkept.trans hp.1
    | pledged _ _ hnew => rw [hnew, h.2 p hp]
    | ended => exact absurd rfl (hother _)
  · intro id l hl hother
    cases exec_lending hnum hexec id with
    | kept hkept => exact hkept.trans hl.1
    | lent hnew => rw [hnew, h l hl]
    | repaid => exact absurd rfl (hother _)

/-! ## Runs -/

/-- A batch of deposits lowers no balance. -/
theorem creditBatch_balance {deposits : List (Nat × Int)} {ds : List ValidatedDeposit}
    (hds : Validated s deposits ds) (ht : ∀ i, s.balance i ≤ t.balance i) (i : Nat) :
    s.balance i ≤ (ds.foldl State.creditBatch t).balance i := by
  have hread := hds.read
  clear hds
  induction ds generalizing t with
  | nil => exact ht i
  | cons d ds ih =>
      obtain ⟨⟨hv, hpos, -⟩, hrest⟩ := List.forall_mem_cons.mp hread
      refine ih (fun j => ?_) hrest
      rw [State.creditBatch, balance_put_vault]
      split
      · next heq =>
        rw [heq, balance_of_vault hv, Vault.withBalance_balance]
        omega
      · exact ht j

/-- A call that takes nothing from vaults with a position lowers no balance of theirs. -/
theorem State.SparesPledged.le (hnum : s.Numbered) (hexec : exec c e s = .ok ((), t))
    (h : s.SparesPledged c) (hc : ¬ c.Takes) {p : TokenCollateral} (hp : s.Pledged id p)
    (hv : s.vault id ≠ none) : s.balance id ≤ t.balance id := by
  have hframe := exec_frame c hnum _ _ hexec
  have hspared : (.balance ∈ (c.footprint s).parts →
      ∀ id ∈ (c.footprint s).vaults, ∀ p, ¬ s.Pledged id p) → s.balance id ≤ t.balance id := by
    intro hspares
    by_cases hbalance : .balance ∈ (c.footprint s).parts
    · have hout : id ∉ (c.footprint s).vaults := fun hin => hspares hbalance id hin p hp
      rw [State.balance, State.balance, hframe.vault_eq hout]
    · exact (hframe.balance hbalance hv).ge
  unfold State.SparesPledged at h
  split at h
  · obtain ⟨v, htx, hpos, -⟩ := deposit_spec _ _ hexec
    rw [htx.balance id, Vault.withBalance_balance]
    split <;> omega
  · rcases batchDeposit_spec _ _ hexec with ⟨rfl, -⟩ | ⟨token, ds, hds, -, -, -, rfl⟩
    · exact le_rfl
    · refine creditBatch_balance hds (fun i => ?_) id
      exact le_rfl
  · obtain ⟨v, htx, hpos⟩ := rollbackWithdrawal_spec _ _ hexec
    rw [htx.balance id, Vault.withBalance_balance]
    split <;> omega
  · exact hspared (h.resolve_left hc)

theorem State.Secured.exec (hs : s.Secured) (hnum : s.Numbered)
    (hbps : ∀ id, s.RotationSound e id) (hlocks : s.Locks e c) (hspares : s.SparesPledged c)
    (hexec : exec c e s = .ok ((), t)) : t.Secured := by
  have hsecures := hlocks.secures hnum hbps hexec
  intro id p hp
  have hkept : s.Pledged id p → p.Covers ∧ 0 < p.collateralAmount ∧
      p.collateralAmount ≤ t.balance id := by
    intro hbefore
    obtain ⟨hcovers, hpos, hle⟩ := hs id p hbefore
    refine ⟨hcovers, hpos, ?_⟩
    by_cases hc : c.Takes
    · exact hsecures.covered hc id p hbefore hle
    · refine hle.trans (hspares.le hnum hexec hc hbefore fun hnone => ?_)
      simp only [State.balance, hnone, Option.map_none, Option.getD_none] at hle
      omega
  cases exec_collateral hnum hexec id with
  | kept heq => exact hkept ⟨heq ▸ hp.1, hp.2⟩
  | @pledged a x l r hpos hle hnew =>
      obtain rfl := Option.some.inj (hnew.symm.trans hp.1)
      have hsame : t.balance id = s.balance id := by
        obtain ⟨rfl, -⟩ := setTokenCollateral_spec _ _ hexec
        rfl
      exact ⟨hlocks.1, hpos, hle.trans hsame.ge⟩
  | ended hnew =>
      obtain rfl := Option.some.inj (hnew.symm.trans hp.1)
      cases hp.2

/-- In every run of calls that lock collateral, and spare it where they may lower a balance
otherwise, every active position covers its loan and is covered by the balance; a call
leaves positions and loans what they are exactly if it locks collateral. -/
theorem collateral_locked (w : World) :
    (∀ w₀ ks, Genesis w₀ →
      Run (Guarded Step (OnCalls fun s e c => s.Locks e c ∧ s.SparesPledged c)) w₀ ks w →
      w.state.Secured) ∧
    ∀ e c t, Reachable w → exec c e w.state = .ok ((), t) →
      (Secures w.state c t ↔ w.state.Locks e c) := by
  refine ⟨fun w₀ ks h₀ hrun => ?_, fun e c t hw hexec => ?_⟩
  · have hboth : Reachable w ∧ w.state.Secured := by
      refine hrun.invariant (I := fun w => Reachable w ∧ w.state.Secured)
        ⟨⟨w₀, [], h₀, .start⟩, ?_⟩ ?_
      · intro id p hp
        cases (h₀.get (k := .tokenCollateral id) (by simp)).symm.trans hp.1
      · rintro w k w' ⟨hw, hs⟩ ⟨hstep, hP⟩
        refine ⟨hw.step hstep, ?_⟩
        cases hstep with
        | call _ hexec => exact hs.exec hw.numbered hw.sound.rotationSound hP.1 hP.2 hexec
        | tokens _ _ => exact hs
    exact hboth.2
  · exact ⟨fun h => h.locks hw.sound.rotationSound hexec,
      fun h => h.secures hw.numbered hw.sound.rotationSound hexec⟩

end Balances

/-! ## Collateral that is not locked -/

/-- A vault of 100 with collateral of 60 for a loan of 60 at 100%, of which 40 are then
withdrawn. -/
theorem collateral_locked_withdrawal : ∃ w₁ w : World, Reachable w ∧ w.state.Secured ∧
    Secures w₁.state (.withdrawal (.withdraw 1 ⟨1⟩ 40)) w.state ∧ w.state.balance 1 = 60 ∧
    (w.state.get (.tokenCollateral 1)).any
      (fun p => p.active ∧ p.collateralAmount = 60) = true := by
  have hplay : (play (initialised ⟨8⟩ ⟨9⟩)
      [opensVault 100, paysIn 100]).any (fun w₀ =>
      w₀.state.get (.tokenCollateral 1) = none ∧
      (play w₀ [(signedBy [⟨1⟩] 0, .lending (.setTokenCollateral 1 ⟨1⟩ 60 60 10000))]).any
        fun w₁ => w₁.state.balance 1 = 100 ∧
          (w₁.state.get (.tokenCollateral 1)).any (fun p => p.collateralAmount = 60) ∧
          (play w₁ [(signedBy [⟨1⟩] 0, .withdrawal (.withdraw 1 ⟨1⟩ 40))]).any fun w =>
            w.state.balance 1 = 60 ∧ (w.state.get (.tokenCollateral 1)).any
              (fun p => p.active ∧ p.collateralAmount = 60)) = true := by decide +kernel
  simp only [Option.any_eq_true, decide_eq_true_eq] at hplay
  obtain ⟨w₀, hw₀, hnone, w₁, hw₁, hfull, ⟨p₁, hp₁, hsixty⟩, w, hw, hleft, p, hp, hkept⟩ := hplay
  have hset : w₀.state.Locks (signedBy [⟨1⟩] 0)
      (.lending (.setTokenCollateral 1 ⟨1⟩ 60 60 10000)) :=
    ⟨by decide, fun p hp => by cases hnone.symm.trans hp.1⟩
  have hwithdraw : w₁.state.Locks (signedBy [⟨1⟩] 0) (.withdrawal (.withdraw 1 ⟨1⟩ 40)) := by
    intro _ i p hp hle
    by_cases hi : 1 = i
    · subst hi
      obtain rfl := Option.some.inj (hp₁.symm.trans hp.1)
      simp [Call.taken, Call.payments, hfull, hsixty]
    · simpa [Call.taken, Call.payments, hi] using hle
  have hstart : Run (Guarded Step (OnCalls fun s e c => s.Locks e c ∧ s.SparesPledged c))
      (initialised ⟨8⟩ ⟨9⟩) _ w₀ :=
    guarded_of_play (by simp [State.Locks, State.SparesPledged, Call.Takes, Call.footprint,
      VaultCall.footprint, State.creation]) hw₀
  have hrun₁ := hstart.next (guarded_step_of_play ⟨hset, by
    simp [State.SparesPledged, Call.footprint, LendingCall.footprint]⟩ hw₁)
  have hrun := hrun₁.next (guarded_step_of_play ⟨hwithdraw, .inl trivial⟩ hw)
  have hgenesis : Genesis (initialised ⟨8⟩ ⟨9⟩) := genesis_initialised (by decide) (by decide)
  have hsecures : Secures w₁.state (.withdrawal (.withdraw 1 ⟨1⟩ 40)) w.state := by
    cases step_of_play hw with
    | call _ hexec =>
        exact ((collateral_locked w₁).2 _ _ _ ⟨_, _, hgenesis, hrun₁.unguard⟩ hexec).mpr hwithdraw
  exact ⟨w₁, w, ⟨_, _, hgenesis, hrun.unguard⟩, (collateral_locked w).1 _ _ hgenesis hrun, hsecures,
    hleft, (Option.any_eq_true _ _).mpr ⟨p, hp, decide_eq_true hkept⟩⟩

/-- A position of 60 at 100% is accepted for a loan of 1000. The 100 of the vault are then
withdrawn with the position active; or the position is replaced by one of 10. A loan that
is not repaid is replaced by another one. -/
theorem collateral_withdrawn : ∃ w w₁ w₂ w₃ w₄ w₅ : World, Reachable w ∧
    Step w (.call (signedBy [⟨1⟩] 0) (.lending (.setTokenCollateral 1 ⟨1⟩ 60 1000 10000))) w₁ ∧
    w₁.state.Pledged 1 ⟨1, 60, 1000, 10000, true, 0⟩ ∧
    ¬ (⟨1, 60, 1000, 10000, true, 0⟩ : TokenCollateral).Covers ∧
    Step w₁ (.call (signedBy [⟨1⟩] 0) (.withdrawal (.withdraw 1 ⟨1⟩ 100))) w₂ ∧
    w₁.state.balance 1 = 100 ∧ w₂.state.balance 1 = 0 ∧
    w₂.state.Pledged 1 ⟨1, 60, 1000, 10000, true, 0⟩ ∧
    Step w₁ (.call (signedBy [⟨1⟩] 0) (.lending (.setTokenCollateral 1 ⟨1⟩ 10 0 10000))) w₃ ∧
    w₃.state.Pledged 1 ⟨1, 10, 0, 10000, true, 0⟩ ∧
    Step w (.call (signedBy [⟨1⟩] 0) (.lending (.enableTokenLending 1 ⟨1⟩ ⟨5⟩ 90 500 1000))) w₄ ∧
    w₄.state.Lent 1 ⟨1, ⟨5⟩, 90, 500, 0, 1000, false, 0⟩ ∧
    Step w₄ (.call (signedBy [⟨1⟩] 0) (.lending (.enableTokenLending 1 ⟨1⟩ ⟨6⟩ 10 0 0))) w₅ ∧
    w₅.state.Lent 1 ⟨1, ⟨6⟩, 10, 0, 0, 0, false, 0⟩ := by
  have hplay : (play (initialised ⟨8⟩ ⟨9⟩)
      [opensVault 100, paysIn 100]).any (fun w =>
      (play w [(signedBy [⟨1⟩] 0, .lending (.setTokenCollateral 1 ⟨1⟩ 60 1000 10000))]).any
        (fun w₁ => w₁.state.balance 1 = 100 ∧
          w₁.state.get (.tokenCollateral 1) = some ⟨1, 60, 1000, 10000, true, 0⟩ ∧
          (play w₁ [(signedBy [⟨1⟩] 0, .withdrawal (.withdraw 1 ⟨1⟩ 100))]).any (fun w₂ =>
            w₂.state.balance 1 = 0 ∧
              w₂.state.get (.tokenCollateral 1) = some ⟨1, 60, 1000, 10000, true, 0⟩) ∧
          (play w₁ [(signedBy [⟨1⟩] 0, .lending (.setTokenCollateral 1 ⟨1⟩ 10 0 10000))]).any
            fun w₃ => w₃.state.get (.tokenCollateral 1) = some ⟨1, 10, 0, 10000, true, 0⟩) ∧
      (play w [(signedBy [⟨1⟩] 0, .lending (.enableTokenLending 1 ⟨1⟩ ⟨5⟩ 90 500 1000))]).any
        fun w₄ => w₄.state.get (.tokenLending 1) = some ⟨1, ⟨5⟩, 90, 500, 0, 1000, false, 0⟩ ∧
          (play w₄ [(signedBy [⟨1⟩] 0, .lending (.enableTokenLending 1 ⟨1⟩ ⟨6⟩ 10 0 0))]).any
            fun w₅ => w₅.state.get (.tokenLending 1) = some ⟨1, ⟨6⟩, 10, 0, 0, 0, false, 0⟩)
      = true := by decide +kernel
  simp only [Option.any_eq_true, decide_eq_true_eq] at hplay
  obtain ⟨w, hw, ⟨w₁, hw₁, hfull, hposition, ⟨w₂, hw₂, hempty, hkept⟩, w₃, hw₃, hreplaced⟩,
    w₄, hw₄, hloan, w₅, hw₅, hother⟩ := hplay
  exact ⟨w, w₁, w₂, w₃, w₄, w₅, reachable_of_play hw, step_of_play hw₁, ⟨hposition, rfl⟩,
    by simp [TokenCollateral.Covers], step_of_play hw₂, hfull, hempty, ⟨hkept, rfl⟩,
    step_of_play hw₃, ⟨hreplaced, rfl⟩, step_of_play hw₄, ⟨hloan, rfl⟩, step_of_play hw₅,
    ⟨hother, rfl⟩⟩

end Heirloom
