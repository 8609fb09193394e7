import Heirloom.System

/-!
# Staggered schedules

`claim_staggered_vesting` in the terms of its entries: what each of them pays out of the balance
it finds. The share of an entry is taken of that balance, which earlier claims have reduced, and
the last claim of an entry pays the whole share again.

* `stagger_settled`: along every run of claims in which an entry is completed only if it is about
  everything, or at its first claim and before other claims have taken anything that weighs, every
  completed entry has received its share of the balance at the start, up to one unit a claim. A
  claim does not panic exactly if the due entries have an interval, the products fit and the token
  takes the payments.
* `later_claim_shorted_and_zero_interval`: two entries of one half, of which the second gets a
  quarter; and an entry with interval 0.
-/

namespace Heirloom

open Transaction Runs

namespace VestingStaggerEntry

/-! ## One claim -/

/-- The part of `balance` that the entry is about. -/
def share (x : VestingStaggerEntry) (balance : Int) : Int := (balance * x.bps).tdiv 10000

/-- A claim of `caller` at `now` looks at the entry: it is the caller's own, has started, and has
installments left. -/
def Started (x : VestingStaggerEntry) (caller : Address) (now : Nat) : Prop :=
  x.beneficiary = caller ∧ x.claimedInstallments < x.numInstallments ∧ x.startTime ≤ now

instance {x : VestingStaggerEntry} {caller : Address} {now : Nat} :
    Decidable (x.Started caller now) := inferInstanceAs (Decidable (_ ∧ _))

/-- The installments that the claim reaches. -/
def reached (x : VestingStaggerEntry) (caller : Address) (now : Nat) : Nat :=
  if x.Started caller now then min ((now - x.startTime) / x.interval + 1) x.numInstallments
  else x.claimedInstallments

/-- What the claim makes of an entry that finds `balance`: the last one takes the whole share. -/
def due (x : VestingStaggerEntry) (caller : Address) (now : Nat) (balance : Int) : Int :=
  if x.reached caller now - x.claimedInstallments = 0 then 0
  else if x.numInstallments ≤ x.reached caller now then x.share balance
  else (x.share balance).tdiv x.numInstallments *
    ((x.reached caller now - x.claimedInstallments : Nat) : Int)

/-- What the claim pays on account of the entry. -/
def paid (x : VestingStaggerEntry) (caller : Address) (now : Nat) (balance : Int) : Int :=
  max (x.due caller now balance) 0

def afterClaim (x : VestingStaggerEntry) (caller : Address) (now : Nat) (balance : Int) :
    VestingStaggerEntry :=
  if 0 < x.due caller now balance then { x with claimedInstallments := x.reached caller now }
  else x

/-- The arithmetic of one entry succeeds, with `total` paid before on other entries of the same
claim. -/
structure Fits (x : VestingStaggerEntry) (caller : Address) (now : Nat) (balance total : Int) :
    Prop where
  interval : x.Started caller now → x.interval ≠ 0 ∧ (now - x.startTime) / x.interval + 1 ≤ u64Max
  product : x.reached caller now - x.claimedInstallments ≠ 0 → InI128 (balance * x.bps)
  installments : x.reached caller now - x.claimedInstallments ≠ 0 →
    x.reached caller now < x.numInstallments → InI128 ((x.share balance).tdiv x.numInstallments *
      ((x.reached caller now - x.claimedInstallments : Nat) : Int))
  rest : 0 < x.due caller now balance → InI128 (balance - x.due caller now balance)
  total : 0 < x.due caller now balance → InI128 (total + x.due caller now balance)

end VestingStaggerEntry

/-- What a claim pays for each entry, starting with `balance`. -/
def staggerPayments (caller : Address) (now : Nat) : Int → List VestingStaggerEntry → List Int
  | _, [] => []
  | balance, x :: xs =>
      x.paid caller now balance ::
        staggerPayments caller now (balance - x.paid caller now balance) xs

/-- The entries after a claim. -/
def staggerEntries (caller : Address) (now : Nat) :
    Int → List VestingStaggerEntry → List VestingStaggerEntry
  | _, [] => []
  | balance, x :: xs =>
      x.afterClaim caller now balance ::
        staggerEntries caller now (balance - x.paid caller now balance) xs

/-- The arithmetic of a claim succeeds on every entry, each with the balance and the total that
those before it leave. -/
def StaggerFits (caller : Address) (now : Nat) : Int → Int → List VestingStaggerEntry → Prop
  | _, _, [] => True
  | balance, total, x :: xs => x.Fits caller now balance total ∧
      StaggerFits caller now (balance - x.paid caller now balance)
        (total + x.paid caller now balance) xs

/-- The token takes the payments of a claim, one transfer after the other. -/
def TakesPayments (e : Env) (s : State) (token caller : Address) (amounts : List Int) : Prop :=
  ∃ t, payEach token (amounts.map fun a => (caller, a)) e s = .ok ((), t)

section Claims

variable {e : Env} {s t : State} {id : Nat} {v : Vault} {caller : Address}
  {x : VestingStaggerEntry} {acc acc' : StaggerProgress}

theorem ok_staggerUnlocked {n : Nat} :
    staggerUnlocked caller x e s = .ok (n, t) ↔
      (x.Started caller e.timestamp → x.interval ≠ 0 ∧
        (e.timestamp - x.startTime) / x.interval + 1 ≤ u64Max) ∧
      n = x.reached caller e.timestamp ∧ s = t := by
  simp only [staggerUnlocked, Tx.ok_bind, ok_timestamp, Tx.ok_ite, ok_unlockedInstallments,
    Tx.ok_pure]
  constructor
  · rintro ⟨_, _, ⟨rfl, rfl⟩, ⟨hstarted, hfits, rfl, rfl⟩ | ⟨hnot, rfl, rfl⟩⟩
    · exact ⟨fun _ => hfits, ((if_pos hstarted).trans (min_comm _ _)).symm, rfl⟩
    · exact ⟨fun h => absurd h hnot, (if_neg hnot).symm, rfl⟩
  · rintro ⟨hinterval, rfl, rfl⟩
    refine ⟨_, _, ⟨rfl, rfl⟩, ?_⟩
    by_cases hstarted : x.Started caller e.timestamp
    · exact .inl ⟨hstarted, hinterval hstarted, (if_pos hstarted).trans (min_comm _ _), rfl⟩
    · exact .inr ⟨hstarted, (if_neg hstarted).symm, rfl⟩

theorem ok_staggerAmount {share amount : Int} {n claimable : Nat} :
    staggerAmount share x n claimable e s = .ok (amount, t) ↔
      (x.numInstallments ≠ 0 ∧ (n < x.numInstallments →
        InI128 (share.tdiv x.numInstallments * (claimable : Int)))) ∧
      amount = (if x.numInstallments ≤ n then share
        else share.tdiv x.numInstallments * (claimable : Int)) ∧ s = t := by
  simp only [staggerAmount, Tx.ok_bind, ok_divI, Tx.ok_ite, Tx.ok_pure, ok_i128, Nat.cast_ne_zero]
  constructor
  · rintro ⟨_, _, ⟨hne, rfl, rfl⟩, ⟨hlast, rfl, rfl⟩ | ⟨hlast, hfits, rfl, rfl⟩⟩
    · exact ⟨⟨hne, fun h => absurd hlast (not_le.mpr h)⟩, (if_pos hlast).symm, rfl⟩
    · exact ⟨⟨hne, fun _ => hfits⟩, (if_neg hlast).symm, rfl⟩
  · rintro ⟨⟨hne, hfits⟩, rfl, rfl⟩
    refine ⟨_, _, ⟨hne, rfl, rfl⟩, ?_⟩
    by_cases hlast : x.numInstallments ≤ n
    · exact .inl ⟨hlast, (if_pos hlast).symm, rfl⟩
    · exact .inr ⟨hlast, hfits (not_le.mp hlast), (if_neg hlast).symm, rfl⟩

/-- One round of the loop. -/
theorem ok_claimStaggerEntry :
    claimStaggerEntry v caller acc x e s = .ok (acc', t) ↔
      x.Fits caller e.timestamp acc.balance acc.total ∧
      payShare v.tokenAddress caller (x.paid caller e.timestamp acc.balance) e s = .ok ((), t) ∧
      acc' = ⟨acc.balance - x.paid caller e.timestamp acc.balance,
        acc.entries ++ [x.afterClaim caller e.timestamp acc.balance],
        acc.total + x.paid caller e.timestamp acc.balance⟩ := by
  rw [VestingStaggerEntry.paid, payShare_max]
  simp only [claimStaggerEntry, Tx.ok_bind, ok_staggerUnlocked, Tx.ok_ite, Tx.ok_pure, ok_i128,
    ok_staggerAmount, payShare, Tx.ok_onlyIf]
  by_cases hnone : x.reached caller e.timestamp - x.claimedInstallments = 0
  · -- nothing to claim for this entry
    have hdue : x.due caller e.timestamp acc.balance = 0 := if_pos hnone
    have hafter : x.afterClaim caller e.timestamp acc.balance = x := by
      simp [VestingStaggerEntry.afterClaim, hdue]
    simp only [hdue, hafter, lt_irrefl, false_and, not_false_iff, true_and, false_or, max_self,
      sub_zero, add_zero]
    constructor
    · rintro ⟨_, _, ⟨hinterval, rfl, rfl⟩, ⟨_, rfl, rfl⟩ | ⟨hsome, _⟩⟩
      · exact ⟨⟨hinterval, fun h => absurd hnone h, fun h => absurd hnone h, by simp [hdue],
          by simp [hdue]⟩, rfl, rfl⟩
      · exact absurd hnone hsome
    · rintro ⟨hfits, rfl, rfl⟩
      exact ⟨_, _, ⟨hfits.interval, rfl, rfl⟩, .inl ⟨hnone, rfl, rfl⟩⟩
  · have hstarted : x.Started caller e.timestamp := by
      by_contra hnot
      exact hnone (by simp [VestingStaggerEntry.reached, hnot])
    have hdue : x.due caller e.timestamp acc.balance =
        if x.numInstallments ≤ x.reached caller e.timestamp then x.share acc.balance
        else (x.share acc.balance).tdiv x.numInstallments *
          ((x.reached caller e.timestamp - x.claimedInstallments : Nat) : Int) := if_neg hnone
    have hnum : x.numInstallments ≠ 0 := by
      have := hstarted.2.1
      omega
    constructor
    · rintro ⟨_, _, ⟨hinterval, rfl, rfl⟩, ⟨hzero, _⟩ | ⟨_, _, _, ⟨hproduct, rfl, rfl⟩, amount, _,
        ⟨⟨_, hinstallments⟩, hamount, rfl⟩, hpay⟩⟩
      · exact absurd hzero hnone
      obtain rfl : amount = x.due caller e.timestamp acc.balance := hamount.trans hdue.symm
      rcases hpay with ⟨hpos, _, _, htransfer, _, _, ⟨hrest, rfl, rfl⟩, _, _, ⟨htotal, rfl, rfl⟩,
        rfl, rfl⟩ | ⟨hpos, rfl, rfl⟩
      · refine ⟨⟨hinterval, fun _ => hproduct, fun _ => hinstallments, fun _ => hrest,
          fun _ => htotal⟩, .inl ⟨hpos, htransfer⟩, ?_⟩
        rw [max_eq_left hpos.le, VestingStaggerEntry.afterClaim, if_pos hpos]
      · refine ⟨⟨hinterval, fun _ => hproduct, fun _ => hinstallments, fun h => absurd h hpos,
          fun h => absurd h hpos⟩, .inr ⟨hpos, rfl⟩, ?_⟩
        rw [max_eq_right (not_lt.mp hpos), VestingStaggerEntry.afterClaim, if_neg hpos, sub_zero,
          add_zero]
    · rintro ⟨hfits, hpay, rfl⟩
      refine ⟨_, _, ⟨hfits.interval, rfl, rfl⟩, .inr ⟨hnone, _, _, ⟨hfits.product hnone, rfl, rfl⟩,
        _, _, ⟨⟨hnum, hfits.installments hnone⟩, hdue, rfl⟩, ?_⟩⟩
      rcases hpay with ⟨hpos, htransfer⟩ | ⟨hpos, rfl⟩
      · refine .inl ⟨hpos, _, _, htransfer, _, _, ⟨hfits.rest hpos, rfl, rfl⟩, _, _,
          ⟨hfits.total hpos, rfl, rfl⟩, ?_, rfl⟩
        rw [max_eq_left hpos.le, VestingStaggerEntry.afterClaim, if_pos hpos]
      · refine .inr ⟨hpos, ?_, rfl⟩
        rw [max_eq_right (not_lt.mp hpos), VestingStaggerEntry.afterClaim, if_neg hpos, sub_zero,
          add_zero]

/-- The whole loop. -/
theorem ok_staggerLoop {entries : List VestingStaggerEntry} :
    foldEach entries acc (claimStaggerEntry v caller) e s = .ok (acc', t) ↔
      StaggerFits caller e.timestamp acc.balance acc.total entries ∧
      payEach v.tokenAddress ((staggerPayments caller e.timestamp acc.balance entries).map
        fun a => (caller, a)) e s = .ok ((), t) ∧
      acc' = ⟨acc.balance - (staggerPayments caller e.timestamp acc.balance entries).sum,
        acc.entries ++ staggerEntries caller e.timestamp acc.balance entries,
        acc.total + (staggerPayments caller e.timestamp acc.balance entries).sum⟩ := by
  induction entries generalizing acc s with
  | nil =>
      simp only [foldEach, Tx.ok_pure, StaggerFits, staggerPayments, staggerEntries, payEach, forEach,
        List.map_nil, List.sum_nil, sub_zero, add_zero, List.append_nil, true_and]
      exact ⟨fun h => ⟨h.2, h.1.symm⟩, fun h => ⟨h.2.symm, h.1⟩⟩
  | cons x xs ih =>
      simp only [foldEach, Tx.ok_bind, ok_claimStaggerEntry, StaggerFits, staggerPayments,
        staggerEntries, payEach, forEach, List.map_cons, List.sum_cons]
      constructor
      · rintro ⟨_, u, ⟨hfits, hpay, rfl⟩, hrest⟩
        obtain ⟨hfits', hpay', rfl⟩ := ih.mp hrest
        refine ⟨⟨hfits, hfits'⟩, ⟨(), u, hpay, hpay'⟩, ?_⟩
        simp only [List.append_assoc, List.cons_append, List.nil_append, StaggerProgress.mk.injEq,
          true_and]
        exact ⟨by omega, by omega⟩
      · rintro ⟨⟨hfits, hfits'⟩, ⟨_, u, hpay, hpay'⟩, rfl⟩
        refine ⟨_, u, ⟨hfits, hpay, rfl⟩, ih.mpr ⟨hfits', hpay', ?_⟩⟩
        simp only [List.append_assoc, List.cons_append, List.nil_append, StaggerProgress.mk.injEq,
          true_and]
        exact ⟨by omega, by omega⟩

/-- What a claim does to the vault, its entries and the tokens. -/
theorem claimStaggeredVesting_claims {entries : List VestingStaggerEntry}
    (hv : s.vault id = some v) (hentries : s.get (.vestingStagger id) = some entries) :
    wp (claimStaggeredVesting id caller) (fun _ t =>
      t.vault id = some (v.withBalance
        (v.balance - (staggerPayments caller e.timestamp v.balance entries).sum)) ∧
      t.get (.vestingStagger id) = some (staggerEntries caller e.timestamp v.balance entries) ∧
      t.ledger.log = s.ledger.log ++ paymentLog v.tokenAddress
        ((staggerPayments caller e.timestamp v.balance entries).map fun a => (caller, a))) e s := by
  simp only [claimStaggeredVesting, Tx.wp_bind, wp_assertNotPaused, wp_requireAuth, wp_loadVault,
    wp_require, wp_storageGet, Tx.wp_fromSome]
  intro _ _ v' hv' _ entries' hentries' acc t hloop
  obtain rfl := Option.some.inj (hv.symm.trans hv')
  obtain rfl := Option.some.inj (hentries.symm.trans hentries')
  obtain ⟨-, hpay, rfl⟩ := ok_staggerLoop.mp hloop
  obtain rfl := ok_payEach hpay
  simp only [wp_saveVault, wp_storageSet, Tx.wp_pure]
  intro _ _
  refine ⟨by simp, by simp, ?_⟩
  simp [TokenLedger.Ledger.log_transferAll, State.transferAll]

/-! ## Panics -/

/-- The call stops with anything but an error of the contract. -/
def Panics {α : Type} (m : Contract α) (e : Env) (s : State) : Prop :=
  ∃ failure, m e s = .error failure ∧ ∀ err, failure ≠ .error err

theorem avoids_claimStaggerEntry {err : ContractError} :
    Tx.Avoids (.error err) (claimStaggerEntry v caller acc x) := by
  have htrap : (Failure.error err) ≠ .trap := by simp
  have hunlocked : Tx.Avoids (.error err) (staggerUnlocked caller x) :=
    fun e s h => by simp [staggerUnlocked, unlockedInstallments] at h
  have hamount : ∀ share n k, Tx.Avoids (.error err) (staggerAmount share x n k) :=
    fun share n k e s h => by simp [staggerAmount, avoids_divI htrap _ _] at h
  refine hunlocked.bind fun n => ?_
  dsimp only
  split
  · exact fun e s h => by simp at h
  · refine (avoids_i128 htrap).bind fun product => (hamount _ _ _).bind fun amount => ?_
    split
    · exact (avoids_transfer htrap).bind fun _ => (avoids_i128 htrap).bind fun _ =>
        (avoids_i128 htrap).bind fun _ e s h => by simp at h
    · exact fun e s h => by simp at h

/-- A claim that its caller has signed panics exactly where the arithmetic or a payment fails. -/
theorem claimStaggeredVesting_panics_iff {entries : List VestingStaggerEntry}
    (hauth : e.authorized caller = true) (hv : s.vault id = some v) (hreleased : v.status = .released)
    (hentries : s.get (.vestingStagger id) = some entries) :
    Panics (claimStaggeredVesting id caller) e s ↔ (s.get .paused).getD false = false ∧
      ¬ (StaggerFits caller e.timestamp v.balance 0 entries ∧
        TakesPayments e s v.tokenAddress caller
          (staggerPayments caller e.timestamp v.balance entries)) := by
  by_cases hrunning : (s.get .paused).getD false = false
  swap
  · have hpaused : claimStaggeredVesting id caller e s = .error (.error .paused) := by
      refine Tx.bind_of_error ?_
      simp [assertNotPaused, loadPaused, hrunning]
    refine iff_of_false ?_ fun h => hrunning h.1
    rintro ⟨failure, hfailure, hnot⟩
    rw [hpaused] at hfailure
    exact hnot .paused (Except.error.inj hfailure).symm
  have hgates : claimStaggeredVesting id caller e s =
      (foldEach entries ⟨v.balance, [], 0⟩ (claimStaggerEntry v caller) >>= fun progress => do
        require (∃ entry ∈ entries, entry.beneficiary = caller) .notBeneficiary
        require (progress.total ≠ 0) .nothingToClaimYet
        saveVault id (v.withBalance progress.balance)
        storageSet (.vestingStagger id) progress.entries
        return progress.total) e s := by
    have hpaused : assertNotPaused e s = .ok ((), s) := ok_assertNotPaused.mpr ⟨rfl, hrunning⟩
    have hsigned : requireAuth caller e s = .ok ((), s) := ok_requireAuth.mpr ⟨hauth, rfl⟩
    have hstatus : require (v.status = .released) .alreadyReleased e s = .ok ((), s) :=
      ok_require.mpr ⟨hreleased, rfl⟩
    unfold claimStaggeredVesting
    rw [Tx.bind_of_ok hpaused, Tx.bind_of_ok hsigned, Tx.bind_of_ok (ok_loadVault.mpr ⟨hv, rfl⟩),
      Tx.bind_of_ok hstatus, Tx.bind_of_ok (ok_storageGet.mpr ⟨hentries, rfl⟩),
      Tx.bind_of_ok (Tx.ok_fromSome.mpr ⟨rfl, rfl⟩)]
  rw [Panics, hgates]
  simp only [hrunning, true_and]
  cases hloop : foldEach entries ⟨v.balance, [], 0⟩ (claimStaggerEntry v caller) e s with
  | error failure =>
      rw [Tx.bind_of_error hloop]
      refine iff_of_true ⟨failure, rfl, fun err h => ?_⟩ ?_
      · exact Tx.Avoids.foldEach (fun _ _ => avoids_claimStaggerEntry) e s (h ▸ hloop)
      · rintro ⟨hfits, t, hpay⟩
        have hok : foldEach entries ⟨v.balance, [], 0⟩ (claimStaggerEntry v caller) e s = .ok (_, t) :=
          ok_staggerLoop.mpr ⟨hfits, hpay, rfl⟩
        rw [hloop] at hok
        cases hok
  | ok p =>
      obtain ⟨progress, t⟩ := p
      rw [Tx.bind_of_ok hloop]
      obtain ⟨hfits, hpay, -⟩ := ok_staggerLoop.mp hloop
      refine iff_of_false ?_ fun h => h ⟨hfits, t, hpay⟩
      rintro ⟨failure, hfailure, hnot⟩
      simp only [Tx.err_bind, err_require, ok_require, saveVault, err_storageSet, Tx.err_pure,
        ok_storageSet, and_false, exists_false, or_false] at hfailure
      rcases hfailure with ⟨-, hfailure⟩ | ⟨_, _, -, -, hfailure⟩
      · exact hnot _ hfailure.symm
      · exact hnot _ hfailure.symm

end Claims

/-! ## Runs of claims -/

/-- An entry, what it has received in all and in how many claims. -/
structure StaggerAccount where
  entry : VestingStaggerEntry
  received : Int
  claims : Nat

def StaggerAccount.fresh (x : VestingStaggerEntry) : StaggerAccount := ⟨x, 0, 0⟩

def StaggerAccount.afterClaim (a : StaggerAccount) (caller : Address) (now : Nat) (balance : Int) :
    StaggerAccount where
  entry := a.entry.afterClaim caller now balance
  received := a.received + a.entry.paid caller now balance
  claims := if 0 < a.entry.due caller now balance then a.claims + 1 else a.claims

/-- The accounts after a claim that starts with `balance`. -/
def claimAccounts (caller : Address) (now : Nat) : Int → List StaggerAccount → List StaggerAccount
  | _, [] => []
  | balance, a :: as => a.afterClaim caller now balance ::
      claimAccounts caller now (balance - a.entry.paid caller now balance) as

/-- All installments of the entry are claimed, so that no later claim looks at it. -/
def VestingStaggerEntry.Complete (x : VestingStaggerEntry) : Prop :=
  x.numInstallments ≤ x.claimedInstallments

/-- A completed entry has received its share of `balance`, up to one unit a claim. -/
def StaggerAccount.Settled (a : StaggerAccount) (balance : Int) : Prop :=
  a.entry.Complete → |a.received - a.entry.share balance| ≤ a.claims

/-- The contract, with the accounts of one vault. -/
structure StaggerBooks where
  world : World
  accounts : List StaggerAccount

structure StaggerClaim where
  caller : Address
  now : Nat

/-- The claim reaches further installments of the entry than have been claimed so far. -/
def StaggerClaim.Reaches (c : StaggerClaim) (x : VestingStaggerEntry) : Prop :=
  x.claimedInstallments < x.reached c.caller c.now

/-- A claim on a vault with `balance`, which had `start` at first, completes an entry only if the
entry is about everything, or if nothing of it has been claimed, the claim reaches no entry before
it, and its part of what has left the vault since then is at most one unit. -/
def StaggerClaim.CompletesFairly (c : StaggerClaim) (start balance : Int)
    (entries : List VestingStaggerEntry) : Prop :=
  ∀ before x after, entries = before ++ x :: after → c.Reaches x →
    x.numInstallments ≤ x.reached c.caller c.now →
      x.bps = 10000 ∨ x.claimedInstallments = 0 ∧ (∀ y ∈ before, ¬ c.Reaches y) ∧
        |start - balance| * x.bps ≤ 10000

/-- A staggered claim of vault `id`, or a step that leaves the vault and its entries alone. -/
inductive StaggerStep (id : Nat) : StaggerBooks → Option StaggerClaim → StaggerBooks → Prop
  | claim {w w' : World} {e : Env} {caller : Address} {v : Vault} {as : List StaggerAccount} :
      Step w (.call e (.vesting (.claimStaggeredVesting id caller))) w' →
      w.state.vault id = some v →
      StaggerStep id ⟨w, as⟩ (some ⟨caller, e.timestamp⟩)
        ⟨w', claimAccounts caller e.timestamp v.balance as⟩
  | other {w w' : World} {k : Event} {as : List StaggerAccount} :
      Step w k w' → w'.state.vault id = w.state.vault id →
      w'.state.get (.vestingStagger id) = w.state.get (.vestingStagger id) →
      StaggerStep id ⟨w, as⟩ none ⟨w', as⟩

/-- The claim completes entries fairly in the present state of the contract, for a vault that had
`start` at first. -/
def Fairly (id : Nat) (start : Int) (b : StaggerBooks) : Option StaggerClaim → Prop
  | some c => ∀ v entries, b.world.state.vault id = some v →
      b.world.state.get (.vestingStagger id) = some entries →
        c.CompletesFairly start v.balance entries
  | none => True

/-- The accounts are those of the stored entries and add up to what has left the vault. -/
structure StaggerBooks.Balanced (b : StaggerBooks) (id : Nat) (v : Vault) : Prop where
  vault : b.world.state.vault id =
    some (v.withBalance (v.balance - (b.accounts.map (·.received)).sum))
  entries : b.world.state.get (.vestingStagger id) = some (b.accounts.map (·.entry))

section Runs

variable {e : Env} {id : Nat} {v : Vault} {caller : Address} {now : Nat} {start balance : Int}
  {as : List StaggerAccount}

@[simp] theorem afterClaim_bps {x : VestingStaggerEntry} :
    (x.afterClaim caller now balance).bps = x.bps := by
  unfold VestingStaggerEntry.afterClaim
  split <;> rfl

theorem map_bps_claimAccounts : (claimAccounts caller now balance as).map (·.entry.bps) =
    as.map (·.entry.bps) := by
  induction as generalizing balance with
  | nil => rfl
  | cons a as ih =>
      simp only [claimAccounts, List.map_cons, ih, StaggerAccount.afterClaim, afterClaim_bps]

theorem map_entry_claimAccounts : (claimAccounts caller now balance as).map (·.entry) =
    staggerEntries caller now balance (as.map (·.entry)) := by
  induction as generalizing balance with
  | nil => rfl
  | cons a as ih =>
      simp only [claimAccounts, staggerEntries, List.map_cons, ih]
      rfl

theorem sum_received_claimAccounts : ((claimAccounts caller now balance as).map (·.received)).sum =
    (as.map (·.received)).sum + (staggerPayments caller now balance (as.map (·.entry))).sum := by
  induction as generalizing balance with
  | nil => rfl
  | cons a as ih =>
      simp only [claimAccounts, staggerPayments, List.map_cons, List.sum_cons, ih,
        StaggerAccount.afterClaim]
      omega

theorem StaggerAccount.Settled.afterClaim {a : StaggerAccount} (h : a.Settled start)
    (hfair : 0 < a.entry.due caller now balance →
      a.entry.numInstallments ≤ a.entry.reached caller now →
      |a.received - (a.entry.share start - a.entry.share balance)| ≤ a.claims + 1) :
    (a.afterClaim caller now balance).Settled start := by
  by_cases hpos : 0 < a.entry.due caller now balance
  swap
  · -- nothing is paid on account of the entry
    have hsame : a.afterClaim caller now balance = a := by
      simp [StaggerAccount.afterClaim, VestingStaggerEntry.afterClaim, VestingStaggerEntry.paid, hpos,
        max_eq_right (not_lt.mp hpos)]
    rwa [hsame]
  intro hcomplete
  have hentry : a.entry.afterClaim caller now balance =
      { a.entry with claimedInstallments := a.entry.reached caller now } := if_pos hpos
  have hlast : a.entry.numInstallments ≤ a.entry.reached caller now := by
    simpa [VestingStaggerEntry.Complete, StaggerAccount.afterClaim, hentry] using hcomplete
  -- the last claim pays the share of the balance it finds
  have hpaid : a.entry.paid caller now balance = a.entry.share balance := by
    rw [VestingStaggerEntry.paid, max_eq_left hpos.le, VestingStaggerEntry.due, if_pos hlast, if_neg]
    intro hzero
    simp [VestingStaggerEntry.due, hzero] at hpos
  have hshare : (a.entry.afterClaim caller now balance).share start = a.entry.share start := by
    rw [hentry]
    rfl
  have hbound := hfair hpos hlast
  simp only [StaggerAccount.afterClaim, hshare, hpaid, if_pos hpos]
  have hsum : a.received + a.entry.share balance - a.entry.share start =
      a.received - (a.entry.share start - a.entry.share balance) := by omega
  rw [hsum]
  exact_mod_cast hbound

theorem mem_claimAccounts {b : StaggerAccount} (h : b ∈ claimAccounts caller now balance as) :
    ∃ before a after, as = before ++ a :: after ∧ b = a.afterClaim caller now
      (balance - (staggerPayments caller now balance (before.map (·.entry))).sum) := by
  induction as generalizing balance with
  | nil => cases h
  | cons a as ih =>
      rcases List.mem_cons.mp h with rfl | h
      · exact ⟨[], a, as, rfl, by simp [staggerPayments]⟩
      · obtain ⟨before, a', after, rfl, rfl⟩ := ih h
        refine ⟨a :: before, a', after, rfl, ?_⟩
        simp only [staggerPayments, List.map_cons, List.sum_cons, sub_sub]

/-- Entries for which nothing is due leave the balance to the ones after them. -/
theorem sum_staggerPayments {xs : List VestingStaggerEntry}
    (h : ∀ x ∈ xs, ∀ balance, x.due caller now balance = 0) :
    (staggerPayments caller now balance xs).sum = 0 := by
  induction xs generalizing balance with
  | nil => rfl
  | cons x xs ih =>
      obtain ⟨hx, hxs⟩ := List.forall_mem_cons.mp h
      rw [staggerPayments, List.sum_cons, ih hxs, VestingStaggerEntry.paid, hx balance]
      rfl

theorem due_of_bps {x : VestingStaggerEntry} (h : x.bps = 0) : x.due caller now balance = 0 := by
  have hshare : x.share balance = 0 := by simp [VestingStaggerEntry.share, h]
  simp [VestingStaggerEntry.due, hshare]

theorem due_of_not_reaches {c : StaggerClaim} {x : VestingStaggerEntry} (h : ¬ c.Reaches x) :
    x.due c.caller c.now balance = 0 :=
  if_pos (Nat.sub_eq_zero_of_le (Nat.le_of_not_lt h))

/-- Balances that differ by less than a unit of the entry. -/
theorem abs_share_sub_le {x : VestingStaggerEntry} (h : |start - balance| * x.bps ≤ 10000) :
    |x.share start - x.share balance| ≤ 1 := by
  have hproduct : ((start - balance) * x.bps).natAbs ≤ 10000 := by
    rw [Int.natAbs_mul, Int.natAbs_natCast]
    rw [Int.abs_eq_natAbs] at h
    exact_mod_cast h
  have hsign : (10000 : Int).sign = 1 := rfl
  rw [sub_mul] at hproduct
  simp only [VestingStaggerEntry.share, Int.tdiv_eq_ediv, abs_le, hsign]
  split_ifs <;> omega

/-- What the accounts of a run satisfy, one by one. -/
structure StaggerAccount.Kept (start : Int) (a : StaggerAccount) : Prop where
  settled : a.Settled start
  idle : a.entry.bps = 0 → a.received = 0
  unclaimed : a.entry.claimedInstallments = 0 → a.received = 0

theorem StaggerAccount.Kept.afterClaim {a : StaggerAccount} (h : a.Kept start)
    (hsettled : (a.afterClaim caller now balance).Settled start) :
    (a.afterClaim caller now balance).Kept start := by
  refine ⟨hsettled, fun hidle => ?_, fun hunclaimed => ?_⟩
  · have hbps : a.entry.bps = 0 := afterClaim_bps.symm.trans hidle
    simp [StaggerAccount.afterClaim, VestingStaggerEntry.paid, due_of_bps hbps, h.idle hbps]
  · by_cases hpos : 0 < a.entry.due caller now balance
    · -- a payment is for at least one installment
      have hreached : a.entry.reached caller now = 0 := by
        simpa [StaggerAccount.afterClaim, VestingStaggerEntry.afterClaim, hpos] using hunclaimed
      simp [VestingStaggerEntry.due, hreached] at hpos
    · have hfirst : a.entry.claimedInstallments = 0 := by
        simpa [StaggerAccount.afterClaim, VestingStaggerEntry.afterClaim, hpos] using hunclaimed
      simp [StaggerAccount.afterClaim, VestingStaggerEntry.paid, max_eq_right (not_lt.mp hpos),
        h.unclaimed hfirst]

/-- An entry that is about everything has received all that has left the vault. -/
theorem received_of_everything {before after : List StaggerAccount} {a : StaggerAccount}
    (hsum : ((before ++ a :: after).map (·.entry.bps)).sum = 10000)
    (hbps : a.entry.bps = 10000)
    (hidle : ∀ b ∈ before ++ a :: after, b.entry.bps = 0 → b.received = 0) :
    (∀ b ∈ before, b.entry.bps = 0) ∧
      a.received = ((before ++ a :: after).map (·.received)).sum := by
  simp only [List.map_append, List.map_cons, List.sum_append, List.sum_cons, hbps] at hsum
  have hzero : (before.map (·.entry.bps)).sum = 0 ∧ (after.map (·.entry.bps)).sum = 0 := by omega
  simp only [List.sum_eq_zero_iff, List.forall_mem_map] at hzero
  have hnone : ∀ bs : List StaggerAccount, (∀ b ∈ bs, b.received = 0) →
      (bs.map (·.received)).sum = 0 :=
    fun bs h => List.sum_eq_zero fun n hn => by
      obtain ⟨b, hb, rfl⟩ := List.mem_map.mp hn
      exact h b hb
  refine ⟨hzero.1, ?_⟩
  rw [List.map_append, List.sum_append, List.map_cons, List.sum_cons,
    hnone before fun b hb => hidle b (by simp [hb]) (hzero.1 b hb),
    hnone after fun b hb => hidle b (by simp [hb]) (hzero.2 b hb)]
  omega

/-- A fair claim settles the entries that it completes. -/
theorem kept_claimAccounts {c : StaggerClaim} (hkept : ∀ a ∈ as, a.Kept start)
    (hsum : (as.map (·.entry.bps)).sum = 10000)
    (hbalance : balance = start - (as.map (·.received)).sum)
    (hfair : c.CompletesFairly start balance (as.map (·.entry))) :
    ∀ b ∈ claimAccounts c.caller c.now balance as, b.Kept start := by
  intro b hb
  obtain ⟨before, a, after, rfl, rfl⟩ := mem_claimAccounts hb
  have ha := hkept a (by simp)
  refine ha.afterClaim (ha.settled.afterClaim fun hpos hlast => ?_)
  have hreaches : c.Reaches a.entry := by
    by_contra hnot
    rw [due_of_not_reaches hnot] at hpos
    exact lt_irrefl _ hpos
  rcases hfair _ a.entry _ (List.map_append.trans rfl) hreaches hlast with
    hbps | ⟨hfirst, hbefore, hless⟩
  · obtain ⟨hothers, hreceived⟩ := received_of_everything hsum hbps fun b hb => (hkept b hb).idle
    rw [sum_staggerPayments fun x hx balance => by
      obtain ⟨b, hb, rfl⟩ := List.mem_map.mp hx
      exact due_of_bps (hothers b hb)]
    have hshare : ∀ y, a.entry.share y = y := fun y => by
      rw [VestingStaggerEntry.share, hbps]
      exact Int.mul_tdiv_cancel y (by decide)
    rw [hshare, hshare, hreceived, hbalance]
    simp
    omega
  · rw [sum_staggerPayments fun x hx _ => due_of_not_reaches (hbefore x hx), sub_zero,
      ha.unclaimed hfirst, zero_sub, abs_neg]
    exact (abs_share_sub_le hless).trans (by omega)

theorem StaggerBooks.Balanced.claim {w w' : World} (h : Balanced ⟨w, as⟩ id v) {v₁ : Vault}
    (hv₁ : w.state.vault id = some v₁)
    (hstep : Step w (.call e (.vesting (.claimStaggeredVesting id caller))) w') :
    Balanced ⟨w', claimAccounts caller e.timestamp v₁.balance as⟩ id v := by
  obtain rfl := Option.some.inj (h.vault.symm.trans hv₁)
  cases hstep with
  | call _ hexec =>
      simp only [exec, execVesting, Tx.ok_bind, Tx.ok_pure] at hexec
      obtain ⟨_, _, hclaim, _, rfl⟩ := hexec
      obtain ⟨hvault, hentries, -⟩ := claimStaggeredVesting_claims h.vault h.entries _ _ hclaim
      refine ⟨hvault.trans (congrArg (fun y => some (v.withBalance y)) ?_), hentries.trans ?_⟩
      · rw [sum_received_claimAccounts]
        simp only [Vault.withBalance_balance]
        omega
      · rw [map_entry_claimAccounts]

end Runs

/-- Claims of a staggered schedule in any order, at any times, with other steps between them that
leave the vault and its entries alone, and with no entry complete from the start unless its share
is nothing: if an entry is completed only where it is about everything, or at its first claim and
with what has left the vault before weighing at most one unit, every completed entry has received
its share of the balance at the start, up to one unit a claim. And a claim that its caller has
signed panics exactly if an entry of the caller that has started has no interval, or a result
leaves its type, or the token refuses a payment. -/
theorem stagger_settled {w : World} {b : StaggerBooks} {ks : List (Option StaggerClaim)} {id : Nat}
    {v : Vault} {entries : List VestingStaggerEntry} (hv : w.state.vault id = some v)
    (hreleased : v.status = .released) (hentries : w.state.get (.vestingStagger id) = some entries)
    (hsum : (entries.map (·.bps)).sum = 10000)
    (hstart : ∀ x ∈ entries, x.Complete → x.share v.balance = 0)
    (hrun : Run (Guarded (StaggerStep id) (Fairly id v.balance)) ⟨w, entries.map .fresh⟩ ks b) :
    (∀ a ∈ b.accounts, a.Settled v.balance) ∧ b.Balanced id v ∧
      ∀ (e : Env) (caller : Address) (balance : Int), e.authorized caller = true →
        balance = v.balance - (b.accounts.map (·.received)).sum →
        (Panics (claimStaggeredVesting id caller) e b.world.state ↔
          (b.world.state.get .paused).getD false = false ∧
          ¬ (StaggerFits caller e.timestamp balance 0 (b.accounts.map (·.entry)) ∧
            TakesPayments e b.world.state v.tokenAddress caller
              (staggerPayments caller e.timestamp balance (b.accounts.map (·.entry))))) := by
  have hfresh : ∀ a ∈ entries.map StaggerAccount.fresh, a.Kept v.balance := by
    intro a ha
    obtain ⟨x, hx, rfl⟩ := List.mem_map.mp ha
    refine ⟨fun hcomplete => ?_, fun _ => rfl, fun _ => rfl⟩
    have hzero : x.share v.balance = 0 := hstart x hx hcomplete
    simp [StaggerAccount.fresh, hzero]
  have hbalanced : StaggerBooks.Balanced ⟨w, entries.map .fresh⟩ id v :=
    ⟨by simpa [StaggerAccount.fresh, Function.comp_def, Vault.withBalance] using hv,
      by simpa [StaggerAccount.fresh, Function.comp_def] using hentries⟩
  have hbooks : (∀ a ∈ b.accounts, a.Kept v.balance) ∧ b.Balanced id v ∧
      (b.accounts.map (·.entry.bps)).sum = 10000 := by
    refine hrun.invariant (I := fun b => (∀ a ∈ b.accounts, a.Kept v.balance) ∧ b.Balanced id v ∧
      (b.accounts.map (·.entry.bps)).sum = 10000)
      ⟨hfresh, hbalanced, by simpa [StaggerAccount.fresh, Function.comp_def] using hsum⟩ ?_
    rintro b k b' ⟨hkept, hbalanced, hsum⟩ ⟨hstep, hfair⟩
    cases hstep with
    | claim hstep hv₁ =>
        refine ⟨kept_claimAccounts hkept hsum ?_ (hfair _ _ hv₁ hbalanced.entries),
          hbalanced.claim hv₁ hstep, by rw [map_bps_claimAccounts, hsum]⟩
        obtain rfl := Option.some.inj (hbalanced.vault.symm.trans hv₁)
        rfl
    | other _ hvault hstagger =>
        exact ⟨hkept, ⟨hvault.trans hbalanced.vault, hstagger.trans hbalanced.entries⟩, hsum⟩
  obtain ⟨hkept, hbalanced, -⟩ := hbooks
  refine ⟨fun a ha => (hkept a ha).settled, hbalanced, fun e caller balance hauth hbalance => ?_⟩
  subst hbalance
  exact claimStaggeredVesting_panics_iff hauth hbalanced.vault hreleased hbalanced.entries

/-- Two entries about one half each: one heir takes his half at once, the other one the first of
two installments. -/
theorem stagger_settled_two_heirs : ∃ (w : World) (b : StaggerBooks) (v : Vault)
    (x y : VestingStaggerEntry), Reachable w ∧ w.state.vault 1 = some v ∧ v.balance = 500 ∧
      w.state.get (.vestingStagger 1) = some [x, y] ∧ b.Balanced 1 v ∧
        ∃ a a', b.accounts = [a, a'] ∧ a.entry.Complete ∧ a.received = 250 ∧
          a.Settled v.balance ∧ a'.received = 62 := by
  have hplay : (play (initialised ⟨8⟩ ⟨9⟩)
      [opensVault 1000, paysIn 500,
        (signedBy [⟨1⟩] 0, .vesting (.setVestingSchedule 1 ⟨1⟩ 0 5000 2 500 0)),
        (signedBy [⟨1⟩] 0, .vesting (.setVestingStagger 1 ⟨1⟩
          [⟨⟨2⟩, 5000, 0, 10, 1, 0⟩, ⟨⟨3⟩, 5000, 0, 5000, 2, 0⟩])),
        (signedBy [] 2000, .release (.triggerRelease 1))]).any (fun w =>
      (play w [(signedBy [⟨2⟩] 2000, .vesting (.claimStaggeredVesting 1 ⟨2⟩))]).any fun u =>
        (play u [(signedBy [⟨3⟩] 3000, .vesting (.claimStaggeredVesting 1 ⟨3⟩))]).any fun _ =>
          (w.state.vault 1).any fun v => (u.state.vault 1).any fun v₁ =>
            decide (v.balance = 500 ∧ v.status = .released ∧ v₁.balance = 250 ∧
              w.state.get (.vestingStagger 1) =
                some [⟨⟨2⟩, 5000, 0, 10, 1, 0⟩, ⟨⟨3⟩, 5000, 0, 5000, 2, 0⟩] ∧
              u.state.get (.vestingStagger 1) =
                some [⟨⟨2⟩, 5000, 0, 10, 1, 1⟩, ⟨⟨3⟩, 5000, 0, 5000, 2, 0⟩])) = true := by
    decide +kernel
  obtain ⟨w, hw, hplay⟩ := (Option.any_eq_true _ _).mp hplay
  obtain ⟨u, hu, hplay⟩ := (Option.any_eq_true _ _).mp hplay
  obtain ⟨w', hw', hchecks⟩ := (Option.any_eq_true _ _).mp hplay
  simp only [Option.any_eq_true, decide_eq_true_eq] at hchecks
  obtain ⟨v, hv, v₁, hv₁, hbalance, hreleased, hhalf, hentries, hentries₁⟩ := hchecks
  have hfirst : StaggerStep 1
      ⟨w, [.fresh ⟨⟨2⟩, 5000, 0, 10, 1, 0⟩, .fresh ⟨⟨3⟩, 5000, 0, 5000, 2, 0⟩]⟩
      (some ⟨⟨2⟩, 2000⟩) ⟨u, claimAccounts ⟨2⟩ 2000 v.balance _⟩ :=
    .claim (step_of_play hu) hv
  have hnext : StaggerStep 1
      ⟨u, [⟨⟨⟨2⟩, 5000, 0, 10, 1, 1⟩, 250, 1⟩, ⟨⟨⟨3⟩, 5000, 0, 5000, 2, 0⟩, 0, 0⟩]⟩
      (some ⟨⟨3⟩, 3000⟩) ⟨w', claimAccounts ⟨3⟩ 3000 v₁.balance _⟩ :=
    .claim (step_of_play hw') hv₁
  -- nothing has left the vault when the first heir completes his entry
  have hfair : Fairly 1 v.balance ⟨w, [.fresh ⟨⟨2⟩, 5000, 0, 10, 1, 0⟩,
      .fresh ⟨⟨3⟩, 5000, 0, 5000, 2, 0⟩]⟩ (some ⟨⟨2⟩, 2000⟩) := by
    intro v' entries hv' hx before x after hsplit hreaches _
    obtain rfl := Option.some.inj (hv.symm.trans hv')
    cases hentries.symm.trans hx
    rcases before with _ | ⟨y, _ | ⟨z, before⟩⟩
    · cases hsplit
      exact .inr ⟨rfl, fun _ hy => (List.not_mem_nil hy).elim, by simp⟩
    · cases hsplit
      exact absurd hreaches (lt_irrefl _)
    · cases before <;> cases hsplit
  -- the second heir's first installment completes nothing
  have hfair₁ : Fairly 1 v.balance ⟨u, [⟨⟨⟨2⟩, 5000, 0, 10, 1, 1⟩, 250, 1⟩,
      ⟨⟨⟨3⟩, 5000, 0, 5000, 2, 0⟩, 0, 0⟩]⟩ (some ⟨⟨3⟩, 3000⟩) := by
    intro v' entries _ hx before x after hsplit hreaches hlast
    cases hentries₁.symm.trans hx
    rcases before with _ | ⟨y, _ | ⟨z, before⟩⟩
    · cases hsplit
      exact absurd hreaches (lt_irrefl _)
    · cases hsplit
      exact absurd hlast (by decide)
    · cases before <;> cases hsplit
  rw [hbalance] at hfirst
  rw [hhalf] at hnext
  obtain ⟨hsettled, hbalanced, -⟩ := stagger_settled hv hreleased hentries rfl
    (by simp [VestingStaggerEntry.Complete]) (.next (.next .start ⟨hfirst, hfair⟩) ⟨hnext, hfair₁⟩)
  exact ⟨w, _, v, _, _, reachable_of_play hw, hv, hbalance, hentries, hbalanced, _, _, rfl, le_rfl,
    rfl, hsettled _ List.mem_cons_self, rfl⟩

/-- Two entries about one half of 1000 each: the second to claim gets 250. And an entry with
interval 0, which panics. -/
theorem later_claim_shorted_and_zero_interval :
    (¬ ∀ (w : World) (b : StaggerBooks) (ks : List (Option StaggerClaim)) (id : Nat) (v : Vault)
      (entries : List VestingStaggerEntry), Reachable w → w.state.vault id = some v →
      v.status = .released → w.state.get (.vestingStagger id) = some entries →
      (entries.map (·.bps)).sum = 10000 → (∀ x ∈ entries, x.claimedInstallments = 0) →
      Run (StaggerStep id) ⟨w, entries.map .fresh⟩ ks b → ∀ a ∈ b.accounts, a.Settled v.balance) ∧
    ¬ ∀ (w : World) (e : Env) (id : Nat) (v : Vault) (entries : List VestingStaggerEntry)
      (caller : Address), Reachable w → w.state.vault id = some v → v.status = .released →
      w.state.get (.vestingStagger id) = some entries → e.authorized caller = true →
      ¬ Panics (claimStaggeredVesting id caller) e w.state := by
  constructor
  · have hplay : (play (initialised ⟨8⟩ ⟨9⟩)
        [opensVault 1000, paysIn 1000,
          (signedBy [⟨1⟩] 0, .vesting (.setVestingSchedule 1 ⟨1⟩ 0 5000 2 1000 0)),
          (signedBy [⟨1⟩] 0, .vesting (.setVestingStagger 1 ⟨1⟩
            [⟨⟨2⟩, 5000, 0, 10, 1, 0⟩, ⟨⟨3⟩, 5000, 0, 10, 1, 0⟩])),
          (signedBy [] 2000, .release (.triggerRelease 1))]).any (fun w =>
        (play w [(signedBy [⟨2⟩] 2000, .vesting (.claimStaggeredVesting 1 ⟨2⟩))]).any fun u =>
          (play u [(signedBy [⟨3⟩] 3000, .vesting (.claimStaggeredVesting 1 ⟨3⟩))]).any fun _ =>
            (w.state.vault 1).any fun v => (u.state.vault 1).any fun v₁ =>
              decide (v.balance = 1000 ∧ v.status = .released ∧ v₁.balance = 500 ∧
                w.state.get (.vestingStagger 1) =
                  some [⟨⟨2⟩, 5000, 0, 10, 1, 0⟩, ⟨⟨3⟩, 5000, 0, 10, 1, 0⟩])) = true := by
      decide +kernel
    obtain ⟨w, hw, hplay⟩ := (Option.any_eq_true _ _).mp hplay
    obtain ⟨u, hu, hplay⟩ := (Option.any_eq_true _ _).mp hplay
    obtain ⟨w', hw', hchecks⟩ := (Option.any_eq_true _ _).mp hplay
    simp only [Option.any_eq_true, decide_eq_true_eq] at hchecks
    obtain ⟨v, hv, v₁, hv₁, hbalance, hreleased, hhalf, hentries⟩ := hchecks
    have hfirst : StaggerStep 1
        ⟨w, [⟨⟨⟨2⟩, 5000, 0, 10, 1, 0⟩, 0, 0⟩, ⟨⟨⟨3⟩, 5000, 0, 10, 1, 0⟩, 0, 0⟩]⟩
        (some ⟨⟨2⟩, 2000⟩) ⟨u, claimAccounts ⟨2⟩ 2000 v.balance _⟩ :=
      .claim (step_of_play hu) hv
    have hlast : StaggerStep 1
        ⟨u, [⟨⟨⟨2⟩, 5000, 0, 10, 1, 1⟩, 500, 1⟩, ⟨⟨⟨3⟩, 5000, 0, 10, 1, 0⟩, 0, 0⟩]⟩
        (some ⟨⟨3⟩, 3000⟩) ⟨w', claimAccounts ⟨3⟩ 3000 v₁.balance _⟩ :=
      .claim (step_of_play hw') hv₁
    rw [hbalance] at hfirst
    rw [hhalf] at hlast
    intro h
    have hsettled := h w _ _ 1 v _ (reachable_of_play hw) hv hreleased hentries rfl (by decide)
      (.next (.next .start hfirst) hlast) ⟨⟨⟨3⟩, 5000, 0, 10, 1, 1⟩, 250, 1⟩
      (.tail _ (.head _)) le_rfl
    rw [hbalance] at hsettled
    exact absurd hsettled (by decide)
  · have hplay : (play (initialised ⟨8⟩ ⟨9⟩)
        [opensVault 1000, paysIn 500,
          (signedBy [⟨1⟩] 0, .vesting (.setVestingSchedule 1 ⟨1⟩ 0 5000 2 500 0)),
          (signedBy [⟨1⟩] 0, .vesting (.setVestingStagger 1 ⟨1⟩ [⟨⟨2⟩, 10000, 0, 0, 2, 0⟩])),
          (signedBy [] 2000, .release (.triggerRelease 1))]).any (fun w =>
        (w.state.vault 1).any fun v => decide (v.status = .released ∧
          (w.state.get .paused).getD false = false ∧
          w.state.get (.vestingStagger 1) = some [⟨⟨2⟩, 10000, 0, 0, 2, 0⟩])) = true := by
      decide +kernel
    obtain ⟨w, hw, hplay⟩ := (Option.any_eq_true _ _).mp hplay
    simp only [Option.any_eq_true, decide_eq_true_eq] at hplay
    obtain ⟨v, hv, hreleased, hrunning, hentries⟩ := hplay
    intro h
    refine h w (signedBy [⟨2⟩] 2000) 1 v _ ⟨2⟩ (reachable_of_play hw) hv hreleased hentries rfl ?_
    refine (claimStaggeredVesting_panics_iff rfl hv hreleased hentries).mpr ⟨hrunning, ?_⟩
    rintro ⟨hfits, -⟩
    exact (hfits.1.interval (by decide)).1 rfl

end Heirloom
