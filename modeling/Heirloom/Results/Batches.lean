import Heirloom.Results.Collateral
import Heirloom.Results.Solvency

/-!
# Batches

`batch_withdraw` and `batch_deposit` check every item against the records as they are
before the batch, and only then carry the items out. That is one thing for vaults that
are named once, and another for the rest.

* `batch_withdraw_debits_iff`: every withdrawal of a batch takes its amount. Balances stay
  at zero or above exactly if the vaults that are named repeatedly cover all that is listed
  for them.
* `batch_deposit_credits_iff`: a deposit is written over the record that its check has read,
  so that nothing is lost exactly if no vault is named twice.
-/

namespace Heirloom

open Transaction Runs

/-- The amounts that a batch lists for vault `id`, in order. -/
def amountsFor (id : Nat) (items : List (Nat × Int)) : List Int :=
  (items.filter fun item => item.1 = id).map (·.2)

section Amounts

variable {id : Nat} {items : List (Nat × Int)} {item : Nat × Int} {x : Int}

theorem amountsFor_cons : amountsFor id (item :: items) =
    (if item.1 = id then [item.2] else []) ++ amountsFor id items := by
  by_cases h : item.1 = id <;> simp [amountsFor, h]

theorem amountsFor_append_singleton : amountsFor id (items ++ [item]) =
    amountsFor id items ++ if item.1 = id then [item.2] else [] := by
  by_cases h : item.1 = id <;> simp [amountsFor, h]

theorem mem_amountsFor : x ∈ amountsFor id items ↔ (id, x) ∈ items := by
  simp [amountsFor]

theorem length_amountsFor : (amountsFor id items).length = (items.map (·.1)).count id := by
  induction items with
  | nil => rfl
  | cons item items ih =>
      rw [amountsFor_cons, List.length_append, ih, List.map_cons, List.count_cons]
      by_cases h : item.1 = id <;> simp [h, Nat.add_comm]

/-- What is listed for the vaults of a set that covers the batch is all that is listed. -/
theorem sum_amountsFor {ids : Finset Nat} (h : ∀ item ∈ items, item.1 ∈ ids) :
    ∑ id ∈ ids, (amountsFor id items).sum = (items.map (·.2)).sum := by
  induction items with
  | nil => simp [amountsFor]
  | cons item items ih =>
      obtain ⟨hitem, hitems⟩ := List.forall_mem_cons.mp h
      have hone : ∑ id ∈ ids, (if item.1 = id then [item.2] else []).sum = item.2 := by
        rw [Finset.sum_eq_single item.1 (fun j _ hj => by simp [Ne.symm hj]) (absurd hitem)]
        simp
      simp only [amountsFor_cons, List.sum_append, Finset.sum_add_distrib, ih hitems, hone,
        List.map_cons, List.sum_cons]

end Amounts

/-! ## Withdrawals -/

section Withdrawals

variable {e : Env} {s : State} {ids : List Nat} {amounts : List Int} {caller : Address}

/-- Every item of a batch is covered on its own. -/
theorem batchWithdraw_covered :
    wp (batchWithdraw ids amounts caller) (fun _ _ => ids.length = amounts.length ∧
      ∀ item ∈ ids.zip amounts, item.2 ≤ s.balance item.1) e s := by
  simp only [batchWithdraw, Tx.wp_bind, wp_loadPaused, wp_require, wp_requireAuth]
  intro _ hlength _
  refine Tx.wp_mono validateBatch_spec ?_
  rintro _ t ⟨-, hitems⟩
  simp only [wp_loadToken]
  refine fun token _ _ _ _ => ⟨hlength, fun item hitem => ?_⟩
  obtain ⟨v, hv, -, hle, -⟩ := hitems item hitem
  rwa [balance_of_vault hv]

/-- A vault that the batch names at most once covers what is listed for it. -/
theorem sum_le_of_count_le_one (hlength : ids.length = amounts.length)
    (hitems : ∀ item ∈ ids.zip amounts, item.2 ≤ s.balance item.1) {id : Nat} (hid : id ∈ ids)
    (hcount : ids.count id ≤ 1) : (amountsFor id (ids.zip amounts)).sum ≤ s.balance id := by
  have hone : (amountsFor id (ids.zip amounts)).length = 1 := by
    rw [length_amountsFor, List.map_fst_zip hlength.le]
    exact le_antisymm hcount (List.count_pos_iff.mpr hid)
  obtain ⟨x, hx⟩ := List.length_eq_one_iff.mp hone
  have hmem : (id, x) ∈ ids.zip amounts := by
    rw [← mem_amountsFor, hx]
    exact List.mem_singleton.mpr rfl
  rw [hx, List.sum_singleton]
  exact hitems _ hmem

end Withdrawals

/-- A batch of withdrawals debits every vault with all that is listed for it. No balance
that it debits falls below zero exactly if each vault that is named more than once covers
the sum of its amounts. -/
theorem batch_withdraw_debits_iff {w w' : World} {e : Env} {ids : List Nat} {amounts : List Int}
    {caller : Address}
    (hstep : Step w (.call e (.withdrawal (.batchWithdraw ids amounts caller))) w') :
    ((∀ id, w'.state.balance id =
        w.state.balance id - (amountsFor id (ids.zip amounts)).sum) ∧
      ∀ id ∈ ids, 0 ≤ w'.state.balance id) ↔
    ∀ id, 1 < ids.count id → (amountsFor id (ids.zip amounts)).sum ≤ w.state.balance id := by
  cases hstep with
  | call _ hexec =>
      have hdebit := batchWithdraw_balance _ _ hexec
      obtain ⟨hlength, hitems⟩ := batchWithdraw_covered _ _ hexec
      constructor
      · rintro ⟨-, hnonneg⟩ id hcount
        have hid : id ∈ ids := List.count_pos_iff.mp (Nat.zero_lt_of_lt hcount)
        have hleft := hnonneg id hid
        rw [hdebit id] at hleft
        exact sub_nonneg.mp hleft
      · refine fun hcover => ⟨hdebit, fun id hid => ?_⟩
        rw [hdebit id]
        refine sub_nonneg.mpr ?_
        rcases Nat.lt_or_ge 1 (ids.count id) with hmany | hone
        · exact hcover id hmany
        · exact sum_le_of_count_le_one hlength hitems hid hone

/-- Two withdrawals of 30 from a vault of 100, and one of 50 from another. -/
theorem batch_withdraw_debits_three : ∃ w w' : World, Reachable w ∧
    Step w (.call (signedBy [⟨1⟩] 0)
      (.withdrawal (.batchWithdraw [1, 2, 1] [30, 50, 30] ⟨1⟩))) w' ∧
    ∀ id ∈ [1, 2, 1], 0 ≤ w'.state.balance id := by
  have hplay : (play (initialised ⟨8⟩ ⟨9⟩)
      [opensVault 100, paysIn 100,
        (signedBy [⟨1⟩] 0, .vault (.createVault ⟨1⟩ ⟨3⟩ 100 none)),
        (signedBy [⟨1⟩] 0, .vault (.deposit 2 ⟨1⟩ 50))]).any (fun w =>
      w.state.balance 1 = 100 ∧ (play w [(signedBy [⟨1⟩] 0,
        .withdrawal (.batchWithdraw [1, 2, 1] [30, 50, 30] ⟨1⟩))]).isSome) = true := by
    decide +kernel
  simp only [Option.any_eq_true, decide_eq_true_eq, Option.isSome_iff_exists] at hplay
  obtain ⟨w, hw, hfull, w', hw'⟩ := hplay
  refine ⟨w, w', reachable_of_play hw, step_of_play hw', ?_⟩
  refine ((batch_withdraw_debits_iff (step_of_play hw')).mpr fun id hcount => ?_).2
  obtain rfl : id = 1 := by
    by_contra hne
    by_cases htwo : id = 2
    · subst htwo
      revert hcount
      decide
    · simp [Ne.symm hne, Ne.symm htwo] at hcount
  rw [hfull]
  decide

/-- A vault of 100 is debited twice with 80: the second withdrawal is paid with the tokens of
another vault. -/
theorem batch_withdraw_overdraws : ∃ w w' : World, Reachable w ∧
    Step w (.call (signedBy [⟨1⟩] 0) (.withdrawal (.batchWithdraw [1, 1] [80, 80] ⟨1⟩))) w' ∧
    w.state.balance 1 = 100 ∧ w'.state.balance 1 = -60 := by
  have hplay : (play (initialised ⟨8⟩ ⟨9⟩)
      [opensVault 100, paysIn 100,
        (signedBy [⟨5⟩] 0, .vault (.createVault ⟨5⟩ ⟨2⟩ 100 none)),
        (signedBy [⟨5⟩] 0, .vault (.deposit 2 ⟨5⟩ 100))]).any (fun w =>
      w.state.balance 1 = 100 ∧ (play w [(signedBy [⟨1⟩] 0,
        .withdrawal (.batchWithdraw [1, 1] [80, 80] ⟨1⟩))]).any
          fun w' => w'.state.balance 1 = -60) = true := by decide +kernel
  simp only [Option.any_eq_true, decide_eq_true_eq] at hplay
  obtain ⟨w, hw, hfull, w', hw', hleft⟩ := hplay
  exact ⟨w, w', reachable_of_play hw, step_of_play hw', hfull, hleft⟩

/-! ## Deposits -/

/-- A batch of deposits has lost nothing: every vault has got all that is listed for it, which
is as much as the depositor has paid. -/
structure CreditsAll (source : Address) (deposits : List (Nat × Int)) (s t : State) : Prop where
  credited : ∀ id, t.balance id = s.balance id + (amountsFor id deposits).sum
  grown : ∑ id ∈ (deposits.map (·.1)).toFinset, (t.balance id - s.balance id) =
    (deposits.map (·.2)).sum
  moved : ∃ token, t.ledger.log = s.ledger.log ++
    if deposits = [] then [] else [incoming token source (deposits.map (·.2)).sum]

section Deposits

variable {e : Env} {s t : State} {source : Address} {deposits : List (Nat × Int)}
  {ds : List ValidatedDeposit} {l : List Int}

/-- Of positive amounts, the last is the sum exactly if there is at most one. -/
theorem getLast_eq_sum_iff (h : ∀ x ∈ l, 0 < x) : l.getLast?.getD 0 = l.sum ↔ l.length ≤ 1 := by
  rcases List.eq_nil_or_concat l with rfl | ⟨l, x, rfl⟩
  · simp
  · cases l with
    | nil => simp
    | cons y l =>
        have hy : 0 < y := h y (by simp)
        have hl : 0 ≤ l.sum := List.sum_nonneg fun z hz => (h z (by simp [hz])).le
        rw [List.concat_eq_append, List.getLast?_concat, Option.getD_some, List.sum_append]
        simp
        omega

/-- The last deposit that is listed for a vault is all that it gets. -/
theorem balance_foldl_creditBatch (hread : ∀ d ∈ ds, s.vault d.vaultId = some d.vault)
    (ht : ∀ id, t.balance id = s.balance id) (id : Nat) :
    (ds.foldl State.creditBatch t).balance id =
      s.balance id + (amountsFor id (ds.map fun d => (d.vaultId, d.amount))).getLast?.getD 0 := by
  induction ds using List.reverseRecOn with
  | nil => simpa [amountsFor] using ht id
  | append_singleton ds d ih =>
      have hrest := ih fun d' hd' => hread d' (List.mem_append_left _ hd')
      have hd := hread d (by simp)
      rw [List.foldl_concat, List.map_append, List.map_singleton, amountsFor_append_singleton,
        State.creditBatch, balance_put_vault]
      by_cases hid : id = d.vaultId
      · subst hid
        simp [balance_of_vault hd]
      · simp [hid, Ne.symm hid, hrest]

/-- What a batch of deposits does to the balances, and what it moves. -/
theorem batchDeposit_balance :
    wp (batchDeposit source deposits) (fun _ t => (∀ item ∈ deposits, 0 < item.2) ∧
      (∀ id, t.balance id = s.balance id + (amountsFor id deposits).getLast?.getD 0) ∧
      ∃ token, t.ledger.log = s.ledger.log ++
        if deposits = [] then [] else [incoming token source (deposits.map (·.2)).sum]) e s := by
  refine Tx.wp_mono batchDeposit_spec ?_
  rintro _ _ (⟨rfl, rfl⟩ | ⟨token, ds, hds, -, -, hne, rfl⟩)
  · exact ⟨by simp, by simp [amountsFor], ⟨0⟩, by simp⟩
  have hamounts : deposits.map (·.2) = ds.map (·.amount) := by
    rw [← hds.items, List.map_map]
    rfl
  refine ⟨fun item hitem => ?_, fun id => ?_, token, ?_⟩
  · rw [← hds.items] at hitem
    obtain ⟨d, hd, rfl⟩ := List.mem_map.mp hitem
    exact (hds.read d hd).2.1
  · rw [← hds.items]
    have hpaid : ∀ i, (s.pay token source currentContractAddress
        (ds.map (·.amount)).sum).balance i = s.balance i := fun _ => rfl
    exact balance_foldl_creditBatch (fun d hd => (hds.read d hd).1) hpaid id
  · rw [ledger_creditBatch, State.ledger_pay, if_neg hne, hamounts]
    rfl

end Deposits

/-- A batch of deposits loses nothing exactly if it names no vault twice. -/
theorem batch_deposit_credits_iff {w w' : World} {e : Env} {source : Address}
    {deposits : List (Nat × Int)}
    (hstep : Step w (.call e (.vault (.batchDeposit source deposits))) w') :
    CreditsAll source deposits w.state w'.state ↔ (deposits.map (·.1)).Nodup := by
  cases hstep with
  | call _ hexec =>
      obtain ⟨hpos, hbalance, hmoved⟩ := batchDeposit_balance _ _ hexec
      have hone : ∀ id, (amountsFor id deposits).getLast?.getD 0 = (amountsFor id deposits).sum ↔
          (deposits.map (·.1)).count id ≤ 1 := by
        intro id
        rw [← length_amountsFor]
        exact getLast_eq_sum_iff fun x hx => hpos _ (mem_amountsFor.mp hx)
      rw [List.nodup_iff_count_le_one]
      constructor
      · intro h id
        refine (hone id).mp ?_
        have hgrown := h.credited id
        rw [hbalance id] at hgrown
        exact add_left_cancel hgrown
      · intro hcount
        have hcredited : ∀ id, _ := fun id => (hbalance id).trans
          (congrArg _ ((hone id).mpr (hcount id)))
        refine ⟨hcredited, ?_, hmoved⟩
        rw [← sum_amountsFor fun item hitem => List.mem_toFinset.mpr (List.mem_map_of_mem hitem)]
        exact Finset.sum_congr rfl fun id _ => by rw [hcredited id, add_sub_cancel_left]

/-- Two vaults are credited with what they are listed for. -/
theorem batch_deposit_credits_two : ∃ w w' : World, Reachable w ∧
    CreditsAll ⟨1⟩ [(1, 50), (2, 20)] w.state w'.state := by
  have hplay : (play (initialised ⟨8⟩ ⟨9⟩)
      [opensVault 100,
        (signedBy [⟨1⟩] 0, .vault (.createVault ⟨1⟩ ⟨3⟩ 100 none))]).any (fun w =>
      (play w [(signedBy [⟨1⟩] 0, .vault (.batchDeposit ⟨1⟩ [(1, 50), (2, 20)]))]).isSome) =
        true := by decide +kernel
  simp only [Option.any_eq_true, Option.isSome_iff_exists] at hplay
  obtain ⟨w, hw, w', hw'⟩ := hplay
  exact ⟨w, w', reachable_of_play hw, (batch_deposit_credits_iff (step_of_play hw')).mpr (by decide)⟩

/-- Of the two deposits for one vault, 50 and 30, the first is lost; the depositor pays 80. -/
theorem batch_deposit_loses : ∃ w w' : World, Reachable w ∧
    Step w (.call (signedBy [⟨1⟩] 0) (.vault (.batchDeposit ⟨1⟩ [(1, 50), (1, 30)]))) w' ∧
    w.state.balance 1 = 0 ∧ w'.state.balance 1 = 30 ∧
    w'.state.ledger.log = w.state.ledger.log ++ [incoming ⟨8⟩ ⟨1⟩ 80] := by
  have hplay : (play (initialised ⟨8⟩ ⟨9⟩)
      [opensVault 100]).any (fun w =>
      w.state.balance 1 = 0 ∧
      (play w [(signedBy [⟨1⟩] 0, .vault (.batchDeposit ⟨1⟩ [(1, 50), (1, 30)]))]).any fun w' =>
        w'.state.balance 1 = 30 ∧
          w'.state.ledger.log = w.state.ledger.log ++ [incoming ⟨8⟩ ⟨1⟩ 80]) = true := by
    decide +kernel
  simp only [Option.any_eq_true, decide_eq_true_eq] at hplay
  obtain ⟨w, hw, hempty, w', hw', hlast, hlog⟩ := hplay
  exact ⟨w, w', reachable_of_play hw, step_of_play hw', hempty, hlast, hlog⟩

end Heirloom
