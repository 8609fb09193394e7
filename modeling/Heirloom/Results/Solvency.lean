import Heirloom.Lib.Custody
import Heirloom.Results.Splits

/-!
# Solvency

The contract keeps the tokens of all vaults together. `core_solvency`: along every
run of the calls that create, fund, empty, merge and release vaults, no balance is
negative and the contract holds at least what the vaults of each token may claim.
The accounts are those of `Heirloom.Lib.Custody`, one for each vault.
-/

namespace Heirloom

open Transaction Runs

/-- What vault `id` may claim, and in which token. -/
def State.account (s : State) (id : Nat) : Option (Address × Int) :=
  (s.vault id).map fun v => (v.tokenAddress, v.balance)

/-- What the vaults numbered up to `n` may claim of `token`. -/
def State.owed (s : State) (n : Nat) (token : Address) : Int :=
  Custody.owed (Finset.range (n + 1)) s.account token

/-- No balance is negative, and the contract holds what its vaults may claim. All vaults
are numbered up to the count. -/
structure State.Solvent (s : State) : Prop where
  numbered : s.Numbered
  nonneg : ∀ id v, s.vault id = some v → 0 ≤ v.balance
  covered : ∀ token, s.owed s.count token ≤ s.holding token currentContractAddress

/-- The calls that create, fund, empty, merge and release vaults. -/
def Call.Core : Call → Prop
  | .vault (.createVault ..) | .vault (.createVaultFromInheritance ..) | .vault (.cloneVault ..)
  | .vault (.cloneVaultWithOverrides ..) | .vault (.deposit ..) | .vault (.batchDeposit ..)
  | .vault (.cancelVault ..) | .vault (.mergeVaults ..) | .withdrawal (.withdraw ..)
  | .withdrawal (.partialLiquidate ..) | .checkIn (.checkIn ..) | .checkIn (.checkInWithGeo ..)
  | .release _ => True
  | _ => False

/-- The call moves no tokens and changes no balance: neither is among the parts that it writes. -/
def Call.Still (c : Call) : Prop :=
  ∀ s, .balance ∉ (c.footprint s).parts ∧ .funds ∉ (c.footprint s).parts

section Accounts

variable {e : Env} {s t : State} {c : Call} {id n : Nat} {v w : Vault} {log : Log}
  {token : Address}

theorem le_count (hs : s.Numbered) (hv : s.vault id = some v) : id ≤ s.count := by
  by_contra hlt
  simp [hs id (not_le.mp hlt)] at hv

theorem account_of_vault (hv : s.vault id = some v) :
    s.account id = some (v.tokenAddress, v.balance) := by
  simp [State.account, hv]

/-- What is owed follows the balance of the vault that a call has changed. -/
theorem owed_of_transacts (h : Transacts id v w log s t) (hid : id ≤ n) :
    t.owed n token =
      s.owed n token + if v.tokenAddress = token then w.balance - v.balance else 0 := by
  refine Custody.owed_balance (i := id) (Finset.mem_range.mpr (by omega))
    (account_of_vault h.before) ?_ fun j hj => ?_
  · rw [← h.token]
    exact account_of_vault (by simp [h.after])
  · simp [State.account, h.after, hj]

/-- The contract's holdings follow the transfers. -/
theorem holding_of_transacts (h : Transacts id v w log s t) (token : Address) :
    s.holding token currentContractAddress + (if v.tokenAddress = token then flow log else 0) ≤
      t.holding token currentContractAddress := by
  unfold State.holding
  rw [h.ledger]
  split
  · next ht =>
      subst ht
      exact TokenLedger.Ledger.flow_le_holding h.fair
  · next ht =>
      rw [TokenLedger.Ledger.holding_of_token_ne (fun x hx => (h.fair x hx).1) ht, add_zero]

/-- A call keeps the contract solvent if the balance it leaves is covered by what the
transfers have left of the old one. -/
theorem solvent_of_transacts (h : Transacts id v w log s t) (hs : s.Solvent)
    (hcount : t.count = s.count) (hw : 0 ≤ w.balance) (hle : w.balance ≤ v.balance + flow log) :
    t.Solvent where
  numbered := by
    intro i hi
    rw [hcount] at hi
    have hne : i ≠ id := fun he => absurd (le_count hs.numbered h.before) (by omega)
    rw [h.after, if_neg hne]
    exact hs.numbered i hi
  nonneg := by
    intro i x hx
    rw [h.after] at hx
    split at hx
    · exact Option.some.inj hx ▸ hw
    · exact hs.nonneg i x hx
  covered := by
    intro token
    have hcover := hs.covered token
    have hhold := holding_of_transacts h token
    rw [hcount, owed_of_transacts h (le_count hs.numbered h.before)]
    by_cases ht : v.tokenAddress = token
    · simp only [ht, if_true] at hhold ⊢
      omega
    · simp only [ht, if_false] at hhold ⊢
      omega

theorem count_of_frame {f : Footprint} (h : Frame f s t) (hc : .count ∉ f.areas) :
    t.count = s.count := by
  simp [State.count, h.get_of_area (k := .vaultCount) (by simpa using hc)]

/-- A new vault is empty. -/
theorem solvent_of_creates (h : Creates v s t) (hs : s.Solvent) : t.Solvent where
  numbered := numbered_of_creates h hs.numbered
  nonneg := by
    intro i x hx
    rw [h.vault] at hx
    split at hx
    · rw [← Option.some.inj hx, h.fresh.balance]
    · exact hs.nonneg i x hx
  covered := by
    intro token
    have hledger : t.ledger = s.ledger :=
      (h.frame hs.numbered).funds.resolve_left (by simp [State.creation])
    have howed : t.owed (s.count + 1) token = s.owed s.count token := by
      unfold State.owed
      rw [Finset.range_add_one]
      refine Custody.owed_open (u := v.tokenAddress) (by simp) ?_ fun j hj => ?_
      · rw [account_of_vault (v := v) (by simp [h.vault]), h.fresh.balance]
      · simp [State.account, h.vault, hj]
    rw [h.count, howed, State.holding, hledger]
    exact hs.covered token

/-- A call that touches neither balances nor tokens. -/
theorem solvent_of_still {f : Footprint} (h : Frame f s t) (hc : .creation ∉ f.parts)
    (hcount : .count ∉ f.areas) (hbalance : .balance ∉ f.parts) (hfunds : .funds ∉ f.parts)
    (hs : s.Solvent) : t.Solvent where
  numbered := numbered_of_frame h hc hcount hs.numbered
  nonneg := by
    intro i w hw
    obtain ⟨v, hv, hagree⟩ := h.vault_before hc hw
    rw [hagree.balance.resolve_left hbalance]
    exact hs.nonneg i v hv
  covered := by
    intro token
    have haccount : ∀ i, t.account i = s.account i := by
      intro i
      cases hv : s.vault i with
      | none => simp [State.account, hv, h.created.resolve_left hc i hv]
      | some v =>
          obtain ⟨w, hw, hagree⟩ := h.kept i v hv
          simp [State.account, hv, hw, hagree.token, hagree.balance.resolve_left hbalance]
    have howed : t.owed t.count token = s.owed s.count token := by
      rw [count_of_frame h hcount]
      exact Custody.owed_congr fun i _ => haccount i
    rw [howed, State.holding, h.funds.resolve_left hfunds]
    exact hs.covered token

/-! ## Batches of deposits -/

/-- The vaults of `u` are those of `s` with more in them, by at most `total` in `token`. -/
structure Credited (token : Address) (total : Int) (s u : State) : Prop where
  vaults : ∀ i, (s.vault i = none ∧ u.vault i = none) ∨
    ∃ v x, s.vault i = some v ∧ u.vault i = some (v.withBalance x) ∧ v.balance ≤ x
  owed : ∀ n, s.Numbered → s.count ≤ n →
    u.owed n token ≤ s.owed n token + total ∧
      ∀ token', token' ≠ token → u.owed n token' = s.owed n token'

/-- A vault that the batch names twice is credited with its last deposit only, so what is
owed grows by at most the deposits. -/
theorem Credited.credit {u : State} {total : Int} {d : ValidatedDeposit}
    (h : Credited token total s u) (hv : s.vault d.vaultId = some d.vault) (hpos : 0 < d.amount)
    (htoken : d.vault.tokenAddress = token) :
    Credited token (total + d.amount) s (u.creditBatch d) := by
  obtain ⟨hnone, -⟩ | ⟨v, x, hv', hu, hx⟩ := h.vaults d.vaultId
  · simp [hnone] at hv
  obtain rfl : v = d.vault := by simpa [hv] using hv'.symm
  have htx : Transacts d.vaultId (d.vault.withBalance x)
      (d.vault.withBalance (d.vault.balance + d.amount)) [] u (u.creditBatch d) :=
    .save hu (fun _ => rfl) rfl fair_nil rfl
  refine ⟨fun i => ?_, fun n hnum hn => ?_⟩
  · by_cases hi : i = d.vaultId
    · subst hi
      exact .inr ⟨d.vault, d.vault.balance + d.amount, hv, by simp [htx.after], by omega⟩
    · simpa [htx.after, hi] using h.vaults i
  · have hid : d.vaultId ≤ n := (le_count hnum hv).trans hn
    obtain ⟨hle, hother⟩ := h.owed n hnum hn
    refine ⟨?_, fun token' hne => ?_⟩
    · rw [owed_of_transacts htx hid]
      simp only [Vault.withBalance_tokenAddress, Vault.withBalance_balance, htoken, if_true]
      omega
    · rw [owed_of_transacts htx hid, hother token' hne]
      simp [htoken, hne.symm]

theorem credited_foldl {ds : List ValidatedDeposit} {u : State} {total : Int}
    (h : Credited token total s u)
    (hds : ∀ d ∈ ds, s.vault d.vaultId = some d.vault ∧ 0 < d.amount ∧
      d.vault.tokenAddress = token) :
    Credited token (total + (ds.map (·.amount)).sum) s (ds.foldl State.creditBatch u) := by
  induction ds generalizing u total with
  | nil => simpa using h
  | cons d ds ih =>
      obtain ⟨⟨hv, hpos, htoken⟩, hrest⟩ := List.forall_mem_cons.mp hds
      have hnext := ih (h.credit hv hpos htoken) hrest
      simpa [add_assoc] using hnext

theorem ledger_creditBatch {ds : List ValidatedDeposit} {u : State} :
    (ds.foldl State.creditBatch u).ledger = u.ledger := by
  induction ds generalizing u with
  | nil => rfl
  | cons d ds ih => exact (ih (u := u.creditBatch d)).trans rfl

theorem count_creditBatch {ds : List ValidatedDeposit} {u : State} :
    (ds.foldl State.creditBatch u).count = u.count := by
  induction ds generalizing u with
  | nil => rfl
  | cons d ds ih =>
      refine (ih (u := u.creditBatch d)).trans ?_
      simp [State.count, State.creditBatch]

/-- Vaults that were credited with what has come in are covered. -/
theorem Credited.solvent {total : Int} (h : Credited token total s t) (hs : s.Solvent)
    (hcount : t.count = s.count)
    (hhold : ∀ token', t.holding token' currentContractAddress =
      s.holding token' currentContractAddress + if token = token' then total else 0) :
    t.Solvent where
  numbered := by
    intro i hi
    obtain ⟨-, hnone⟩ | ⟨v, x, hv, -⟩ := h.vaults i
    · exact hnone
    · simp [hs.numbered i (hcount ▸ hi)] at hv
  nonneg := by
    intro i w hw
    obtain ⟨-, hnone⟩ | ⟨v, x, hv, hw', hle⟩ := h.vaults i
    · simp [hnone] at hw
    · obtain rfl : v.withBalance x = w := by simpa [hw'] using hw
      exact (hs.nonneg i v hv).trans hle
  covered := by
    intro token'
    obtain ⟨howed, hother⟩ := h.owed s.count hs.numbered le_rfl
    have hcover := hs.covered token'
    rw [hcount, hhold]
    by_cases ht : token = token'
    · subst ht
      rw [if_pos rfl]
      omega
    · rw [if_neg ht, hother token' (Ne.symm ht)]
      omega

theorem batchDeposit_solvent {source : Address} {deposits : List (Nat × Int)} (hs : s.Solvent) :
    wp (batchDeposit source deposits) (fun _ t => t.Solvent) e s := by
  refine Tx.wp_mono batchDeposit_spec ?_
  rintro _ _ (⟨rfl, -⟩ | ⟨token, ds, hds, htoken, hauth, -, rfl⟩)
  · exact hs
  have hsource : source ≠ currentContractAddress := by
    rintro rfl
    simp [e.contract_unauthorized] at hauth
  have hpaid : ∀ total, Credited token 0 s (s.pay token source currentContractAddress total) := by
    refine fun total => ⟨fun i => ?_, fun n _ _ => ⟨?_, fun _ _ => rfl⟩⟩
    · cases hv : s.vault i with
      | none => exact .inl ⟨rfl, hv⟩
      | some v => exact .inr ⟨v, v.balance, rfl, hv, le_rfl⟩
    · rw [add_zero]
      exact le_rfl
  have hcredited := credited_foldl (hpaid (ds.map (·.amount)).sum) fun d hd =>
    ⟨(hds.read d hd).1, (hds.read d hd).2.1, htoken d hd⟩
  rw [zero_add] at hcredited
  refine hcredited.solvent hs count_creditBatch fun token' => ?_
  unfold State.holding
  rw [ledger_creditBatch, State.ledger_pay, TokenLedger.Ledger.holding_transfer]
  simp [TokenLedger.Transfer.net, hsource]

/-! ## Merges -/

/-- A merge in progress: the sources drained so far have left their balances in `balance`,
which the target is to get. -/
structure Merging (id : Nat) (s : State) (target : Vault) (balance : Int) (t : State) : Prop where
  stored : t.vault id = some target
  vaults : ∀ i w, t.vault i = some w → ∃ v, s.vault i = some v ∧ w.tokenAddress = v.tokenAddress ∧
    0 ≤ w.balance
  ledger : t.ledger = s.ledger
  nonneg : 0 ≤ balance
  owed : ∀ n, s.Numbered → s.count ≤ n → ∀ token,
    t.owed n token + (if target.tokenAddress = token then balance - target.balance else 0) =
      s.owed n token

theorem Merging.drain {target : Vault} {balance : Int} {i : Nat} {u : State}
    (h : Merging id s target balance t) (hi : i ≠ id)
    (htoken : ∀ x, s.vault i = some x → x.tokenAddress = target.tokenAddress)
    (htx : Transacts i v ((v.withBalance 0).withStatus .cancelled) [] t u) :
    Merging id s target (balance + v.balance) u := by
  obtain ⟨x, hx, hsame, hv⟩ := h.vaults i v htx.before
  have hvt : v.tokenAddress = target.tokenAddress := hsame.trans (htoken x hx)
  refine ⟨?_, fun j w hw => ?_, htx.ledger.trans h.ledger, by have := h.nonneg; omega, ?_⟩
  · rw [htx.after, if_neg hi.symm]
    exact h.stored
  · rw [htx.after] at hw
    split at hw
    · next hj =>
        subst hj
        obtain rfl := Option.some.inj hw
        exact ⟨x, hx, hsame, le_rfl⟩
    · exact h.vaults j w hw
  · intro n hnum hn token
    have hold := h.owed n hnum hn token
    rw [owed_of_transacts htx ((le_count hnum hx).trans hn), hvt]
    by_cases ht : target.tokenAddress = token
    · simp only [ht, if_true, Vault.withStatus_balance, Vault.withBalance_balance] at hold ⊢
      omega
    · simp only [ht, if_false] at hold ⊢
      omega

theorem mergeVaults_solvent {sources : List Nat} {caller : Address} (hs : s.Solvent) :
    wp (mergeVaults id sources caller) (fun _ t => t.Solvent) e s := by
  intro _ t hexec
  have hframe : Frame ⟨id :: sources, [.balance, .status], [.indexes]⟩ s t :=
    mergeVaults_frame _ _ hexec
  have hcount : t.count = s.count := count_of_frame hframe (by simp)
  revert hcount hframe
  refine mergeVaults_rule (Q := fun _ t => Frame _ s t → t.count = s.count → t.Solvent)
    (I := fun balance t => ∀ target, s.vault id = some target →
      (∀ i ∈ sources, ∀ v, s.vault i = some v → v.tokenAddress = target.tokenAddress) →
        Merging id s target balance t) ?_ ?_ ?_ _ _ hexec
  · intro target htarget target' htarget' _
    obtain rfl : target = target' := by simpa [htarget] using htarget'
    refine ⟨htarget, fun i w hw => ⟨w, hw, rfl, hs.nonneg i w hw⟩, rfl, hs.nonneg id _ htarget, ?_⟩
    intro n _ _ token
    split <;> omega
  · intro balance i v t u hi hne hI htx target htarget htokens
    exact (hI target htarget htokens).drain hne (htokens i hi) htx
  · intro target balance t htarget _ hsources _ _ hI hframe hcount
    have hmerging := hI target htarget fun i hi v hv => by
      obtain ⟨_, v', hv', -, htoken, -⟩ := hsources i hi
      obtain rfl : v' = v := by simpa [hv] using hv'.symm
      exact htoken
    have htx : Transacts id target (target.withBalance balance) [] t
        (t.put (.vault id) (target.withBalance balance)) :=
      .save hmerging.stored (fun _ => rfl) rfl fair_nil rfl
    refine ⟨numbered_of_frame hframe (by simp) (by simp) hs.numbered, fun i w hw => ?_,
      fun token => ?_⟩
    · rw [htx.after] at hw
      split at hw
      · exact Option.some.inj hw ▸ hmerging.nonneg
      · exact (hmerging.vaults i w hw).choose_spec.2.2
    · have howed := hmerging.owed s.count hs.numbered le_rfl token
      rw [hcount, owed_of_transacts htx (le_count hs.numbered htarget)]
      have hledger : (t.put (.vault id) (target.withBalance balance)).holding token
          currentContractAddress = s.holding token currentContractAddress := by
        simp [State.holding, hmerging.ledger]
      have hcover := hs.covered token
      rw [hledger]
      simp only [Vault.withBalance_balance]
      omega

/-! ## One call -/

theorem Releases.solvent (h : Releases e id v s t) (hcount : t.count = s.count) (hs : s.Solvent)
    (hrange : v.InRange) : t.Solvent := by
  cases h with
  | refunded _ _ h _ => exact solvent_of_transacts h hs hcount le_rfl (by simp)
  | vested _ h _ =>
      exact solvent_of_transacts h hs hcount (hs.nonneg id v h.before) (by simp [Vault.rotated])
  | paid log _ h _ hflow _ =>
      have hamount : 0 ≤ v.releaseAmount :=
        releaseAmount_nonneg (hs.nonneg id v h.before) fun l hl => (hrange.2 l hl).le
      have hle : v.releaseAmount ≤ v.balance := releaseAmount_le
      have hout := hflow hamount hrange.1
      refine solvent_of_transacts h hs hcount ?_ ?_
      · show 0 ≤ v.balance - v.releaseAmount
        omega
      · show v.balance - v.releaseAmount ≤ v.balance + flow log
        omega

theorem execRelease_solvent {o : ReleaseCall} (hs : s.Solvent) (hsound : s.Sound) :
    wp (execRelease o) (fun _ t => t.Solvent) e s := by
  intro _ t hexec
  have hcount : t.count = s.count := by
    refine count_of_frame (execRelease_frame o _ _ hexec) ?_
    cases o <;> simp [ReleaseCall.footprint, releaseFootprint]
  have hrelease : ∀ {id mode}, triggerReleaseInternal id mode e s = .ok ((), t) → t.Solvent := by
    intro id mode hrun
    obtain ⟨v, hv, -, -, -, hrel⟩ :=
      triggerReleaseInternal_spec (hsound.rotationSound id) _ _ hrun
    exact hrel.solvent hcount hs (hsound.settings id v hv)
  cases o with
  | triggerRelease id => exact hrelease hexec
  | triggerReleaseManual id => exact hrelease hexec
  | panicRelease id a =>
      obtain ⟨mode, hrun⟩ := execRelease_internal (c := .panicRelease id a) rfl hexec
      exact hrelease hrun
  | partialRelease id amount =>
      obtain ⟨v, htx, hpos, hle⟩ := partialRelease_spec _ _ hexec
      refine solvent_of_transacts htx hs hcount (by simpa using hle) ?_
      rw [flow_heirsLog hpos.le (hsound.heirs id v htx.before)]
      exact (Int.sub_eq_add_neg).le
  | revealBeneficiary id proof claim =>
      obtain ⟨v, htx, -, -⟩ := revealBeneficiary_spec _ _ hexec
      exact solvent_of_transacts htx hs hcount le_rfl (by simp)

/-- What a vault pays back on cancellation is what it has. -/
theorem flow_refund (h : 0 ≤ v.balance) : flow v.refund = -v.balance := by
  unfold Vault.refund
  split
  · exact flow_outgoing
  · have : v.balance = 0 := by omega
    simp [this]

theorem execVault_solvent {o : VaultCall} (ho : (Call.vault o).Core) (hs : s.Solvent) :
    wp (execVault o) (fun _ t => t.Solvent) e s := by
  intro _ t hexec
  by_cases hcreate : (Call.vault o).Creating
  · obtain ⟨v, hcreates⟩ := exec_creates (c := .vault o) hcreate _ _ hexec
    exact solvent_of_creates hcreates hs
  cases o with
  | deposit id source amount =>
      obtain ⟨v, htx, hpos, -, -, hauth⟩ := deposit_spec _ _ hexec
      have hsource : source ≠ currentContractAddress := by
        rintro rfl
        simp [e.contract_unauthorized] at hauth
      have hcount := count_of_frame (execVault_frame _ hs.numbered _ _ hexec)
        (by simp [VaultCall.footprint])
      have hbefore := hs.nonneg id v htx.before
      refine solvent_of_transacts htx hs hcount ?_ ?_
      · simp only [Vault.withBalance_balance]
        omega
      · rw [flow_incoming hsource]
        exact le_rfl
  | batchDeposit => exact batchDeposit_solvent hs _ _ hexec
  | cancelVault id caller =>
      obtain ⟨v, htx, -⟩ := cancelVault_spec _ _ hexec
      have hcount := count_of_frame (execVault_frame _ hs.numbered _ _ hexec)
        (by simp [VaultCall.footprint])
      refine solvent_of_transacts htx hs hcount le_rfl ?_
      rw [flow_refund (hs.nonneg id v htx.before)]
      simp
  | mergeVaults => exact mergeVaults_solvent hs _ _ hexec
  | _ => first | exact absurd trivial hcreate | exact ho.elim

theorem execWithdrawal_solvent {o : WithdrawalCall} (ho : (Call.withdrawal o).Core)
    (hs : s.Solvent) : wp (execWithdrawal o) (fun _ t => t.Solvent) e s := by
  intro _ t hexec
  have hframe := execWithdrawal_frame o _ _ hexec
  have hpaid : ∀ {id : Nat} {v : Vault} {caller : Address} {amount : Int},
      Transacts id v (v.withBalance (v.balance - amount)) [outgoing v.tokenAddress v.owner amount]
        s t → OwnerPayment e v caller amount → t.count = s.count → t.Solvent := by
    intro id v caller amount htx hpay hcount
    refine solvent_of_transacts htx hs hcount ?_ ?_
    · have := hpay.covered
      simp only [Vault.withBalance_balance]
      omega
    · rw [flow_outgoing]
      exact (Int.sub_eq_add_neg).le
  cases o with
  | withdraw id caller amount =>
      obtain ⟨v, htx, hpay, -⟩ := withdraw_spec _ _ hexec
      exact hpaid htx hpay (count_of_frame hframe (by simp [WithdrawalCall.footprint]))
  | partialLiquidate id amount percentage =>
      obtain ⟨v, htx, hpay, -⟩ := partialLiquidate_spec _ _ hexec
      exact hpaid htx hpay (count_of_frame hframe (by simp [WithdrawalCall.footprint]))
  | _ => exact ho.elim

theorem execCheckIn_solvent {o : CheckInCall} (ho : (Call.checkIn o).Core) (hs : s.Solvent) :
    wp (execCheckIn o) (fun _ t => t.Solvent) e s := by
  have hone : ∀ {id a hash nonce}, wp (checkIn id a hash nonce) (fun _ t => t.Solvent) e s := by
    intro id a hash nonce _ t hrun
    obtain ⟨v, log, htx, hnonneg, -⟩ := checkIn_spec _ _ hrun
    exact solvent_of_transacts htx hs (count_of_frame (checkIn_frame _ _ hrun) (by simp))
      (hnonneg (hs.nonneg id v htx.before)) le_rfl
  cases o with
  | checkIn => exact hone
  | checkInWithGeo => exact hone
  | _ => exact ho.elim

theorem exec_solvent (hc : c.Core ∨ c.Still) (hs : s.Solvent) (hsound : s.Sound) :
    wp (exec c) (fun _ t => t.Solvent) e s := by
  obtain hcore | hstill := hc
  · cases c with
    | vault o => exact execVault_solvent hcore hs
    | withdrawal o => exact execWithdrawal_solvent hcore hs
    | checkIn o => exact execCheckIn_solvent hcore hs
    | release o => exact execRelease_solvent hs hsound
    | _ => exact hcore.elim
  · intro _ t hexec
    by_cases hcreate : c.Creating
    · obtain ⟨v, hcreates⟩ := exec_creates hcreate _ _ hexec
      exact solvent_of_creates hcreates hs
    · exact solvent_of_still (exec_frame c hs.numbered _ _ hexec) (Call.not_creation hcreate).1
        (Call.not_creation hcreate).2 (hstill s).1 (hstill s).2 hs

end Accounts

/-! ## Runs -/

theorem Genesis.solvent {w : World} (h : Genesis w) : w.state.Solvent := by
  refine ⟨h.numbered, fun id v hv => by simp [h.vault] at hv, fun token => ?_⟩
  have howed : w.state.owed w.state.count token = 0 :=
    Custody.owed_eq_zero fun i _ => by simp [State.account, h.vault]
  rw [howed]
  obtain ⟨e, _, _, l, hl, _, hinit⟩ := h
  simp only [initializeContract, Tx.ok_bind, ok_storageGet, ok_require, ok_requireAuth,
    ok_storageSet] at hinit
  obtain ⟨_, _, ⟨rfl, rfl⟩, _, _, ⟨rfl, rfl⟩, _, _, ⟨_, rfl⟩, _, _, ⟨_, rfl⟩, _, _, ⟨_, rfl⟩,
    _, _, rfl, _, _, rfl, hw⟩ := hinit
  rw [← hw]
  exact hl token

/-- The contract stays solvent along every run of the calls that create, fund, empty, merge
and release vaults, in any order, with any of the calls that touch neither balances nor tokens
in between, and whatever tokens are sent to it from outside. -/
theorem core_solvency {w₀ w : World} {ks : List Event} (h₀ : Genesis w₀)
    (hrun : Run (Guarded Step (OnCalls fun _ _ c => c.Core ∨ c.Still)) w₀ ks w) :
    w.state.Solvent := by
  have hall : w.state.Sound ∧ w.state.Solvent := by
    refine hrun.invariant (I := fun w => w.state.Sound ∧ w.state.Solvent)
      ⟨h₀.sound, h₀.solvent⟩ ?_
    rintro w k w' ⟨hsound, hs⟩ ⟨hstep, hc⟩
    cases hstep with
    | call _ hexec =>
        exact ⟨exec_sound hs.numbered hsound _ _ hexec, exec_solvent hc hs hsound _ _ hexec⟩
    | tokens _ hgrow =>
        refine ⟨⟨hsound.heirs, hsound.rotations, hsound.settings⟩, hs.numbered, hs.nonneg, ?_⟩
        exact fun token => (hs.covered token).trans (hgrow token)
  exact hall.2

/-- A batch that names a vault twice, a withdrawal and a merge. The second deposit of the
vault takes the place of the first, so the contract holds more than it owes. -/
theorem core_solvency_with_batch : ∃ w : World, Reachable w ∧ w.state.Solvent ∧
    (w.state.vault 1).map (·.balance) = some 40 ∧
      w.state.holding ⟨8⟩ currentContractAddress = 90 := by
  have hplay : (play (initialised ⟨8⟩ ⟨9⟩)
      [opensVault 100,
        (signedBy [⟨1⟩] 0, .vault (.createVault ⟨1⟩ ⟨3⟩ 100 none)),
        (signedBy [⟨1⟩] 1, .vault (.batchDeposit ⟨1⟩ [(1, 50), (1, 30), (2, 20)])),
        (signedBy [⟨1⟩] 2, .withdrawal (.withdraw 1 ⟨1⟩ 10)),
        (signedBy [⟨1⟩] 3, .vault (.mergeVaults 1 [2] ⟨1⟩))]).any
      (fun w => (w.state.vault 1).map (·.balance) = some 40 ∧
        w.state.holding ⟨8⟩ currentContractAddress = 90) = true := by decide +kernel
  obtain ⟨w, hw, hchecks⟩ := (Option.any_eq_true _ _).mp hplay
  simp only [decide_eq_true_eq] at hchecks
  have hrun : Run (Guarded Step (OnCalls fun _ _ c => c.Core ∨ c.Still)) (initialised ⟨8⟩ ⟨9⟩) _ w :=
    guarded_of_play (by simp [Call.Core]) hw
  have h₀ : Genesis (initialised ⟨8⟩ ⟨9⟩) := genesis_initialised (by decide) (by decide)
  exact ⟨w, reachable_of_play hw, core_solvency h₀ hrun, hchecks⟩

end Heirloom
