import Heirloom.Lib.Index
import Heirloom.System

/-!
# The indexes of owners and beneficiaries

`OwnerVaults` and `BeneficiaryVaults` list the vaults of an address. They mirror
the vaults (`indexes_mirror`) in every run in which no release pays a vault back
to its owner and nothing moves a cancelled vault to another address. The code
checks neither: a refund cancels the vault and leaves it in both indexes, and a
pending update of the beneficiary puts a cancelled vault back into one
(`update_lists_cancelled`).
-/

namespace Heirloom

open Transaction Runs MirrorIndex

/-! ## What the indexes should say -/

/-- The vaults listed under an owner. -/
def State.owned (s : State) (a : Address) : List Nat := (s.get (.ownerVaults a)).getD []

/-- The vaults listed under a beneficiary. -/
def State.inherited (s : State) (a : Address) : List Nat :=
  (s.get (.beneficiaryVaults a)).getD []

/-- The address in an index that a record belongs to; a cancelled vault belongs to none. -/
def Vault.filedUnder (v : Vault) (field : Vault → Address) : Option Address :=
  if v.status = .cancelled then none else some (field v)

def State.filedUnder (s : State) (field : Vault → Address) (n : Nat) : Option Address :=
  (s.vault n).bind (·.filedUnder field)

/-- The indexes of `a` list vault `n` once or not at all, as its record `v` says; they do not
list it once it is cancelled. -/
structure State.ListsExactly (s : State) (n : Nat) (v : Vault) (a : Address) : Prop where
  owner : v.status ≠ .cancelled → (s.owned a).count n = if v.owner = a then 1 else 0
  beneficiary : v.status ≠ .cancelled →
    (s.inherited a).count n = if v.beneficiary = a then 1 else 0
  cancelled : v.status = .cancelled → n ∉ s.owned a ∧ n ∉ s.inherited a

/-- Both indexes mirror the vaults: every owner and every beneficiary has exactly the vaults listed
that name them and are not cancelled. -/
structure IndexesMirror (s : State) : Prop where
  owners : Mirrors s.owned (s.filedUnder (·.owner))
  beneficiaries : Mirrors s.inherited (s.filedUnder (·.beneficiary))

section Indexes

variable {e : Env} {s t : State} {id n : Nat} {a : Address} {v w : Vault} {k : DataKey}
  {x : k.Value} {field : Vault → Address} {ns : List Nat} {c : Call}

/-! ## The indexes under writes -/

/-! The rules of the index functions, in terms of the lists. -/

section Rules

variable {Q : Unit → State → Prop}

theorem wp_listOwned : wp (addOwnerVaultId a id) Q e s ↔
    Q () (s.put (.ownerVaults a) (s.owned a ++ [id])) := wp_addOwnerVaultId

theorem wp_unlistOwned : wp (removeOwnerVaultId a id) Q e s ↔
    Q () (s.assign (.ownerVaults a) (withoutId (s.owned a) id)) := wp_removeOwnerVaultId

theorem wp_touchOwned : wp (touchOwnerVaultIds a) Q e s ↔
    Q () (s.put (.ownerVaults a) (s.owned a)) := wp_touchOwnerVaultIds

theorem wp_listInherited : wp (addBeneficiaryVaultId a id) Q e s ↔
    Q () (s.put (.beneficiaryVaults a) (s.inherited a ++ [id])) := wp_addBeneficiaryVaultId

theorem wp_unlistInherited : wp (removeBeneficiaryVaultId a id) Q e s ↔
    Q () (s.assign (.beneficiaryVaults a) (withoutId (s.inherited a) id)) :=
  wp_removeBeneficiaryVaultId

end Rules

namespace State

@[simp] theorem owned_put_self :
    (s.put (.ownerVaults a) ns).owned = Function.update s.owned a ns := by
  funext b
  by_cases h : b = a
  · subst h
    simp [owned]
  · simp [owned, h]

@[simp] theorem inherited_put_self :
    (s.put (.beneficiaryVaults a) ns).inherited = Function.update s.inherited a ns := by
  funext b
  by_cases h : b = a
  · subst h
    simp [inherited]
  · simp [inherited, h]

@[simp] theorem owned_withoutId : (s.assign (.ownerVaults a) (withoutId ns n)).owned =
    Function.update s.owned a (without n ns) := by
  unfold withoutId
  split
  · next h =>
      funext b
      by_cases hb : b = a
      · subst hb
        simpa [State.assign, owned, without] using h
      · simp [State.assign, owned, hb]
  · exact owned_put_self

@[simp] theorem inherited_withoutId : (s.assign (.beneficiaryVaults a) (withoutId ns n)).inherited =
    Function.update s.inherited a (without n ns) := by
  unfold withoutId
  split
  · next h =>
      funext b
      by_cases hb : b = a
      · subst hb
        simpa [State.assign, inherited, without] using h
      · simp [State.assign, inherited, hb]
  · exact inherited_put_self

@[simp] theorem owned_put (h : ∀ a, k ≠ .ownerVaults a) : (s.put k x).owned = s.owned := by
  funext b
  simp [owned, (h b).symm]

@[simp] theorem inherited_put (h : ∀ a, k ≠ .beneficiaryVaults a) :
    (s.put k x).inherited = s.inherited := by
  funext b
  simp [inherited, (h b).symm]

@[simp] theorem owned_erase (h : ∀ a, k ≠ .ownerVaults a) : (s.erase k).owned = s.owned := by
  funext b
  simp [owned, (h b).symm]

@[simp] theorem inherited_erase (h : ∀ a, k ≠ .beneficiaryVaults a) :
    (s.erase k).inherited = s.inherited := by
  funext b
  simp [inherited, (h b).symm]

@[simp] theorem owned_assign {o : Option k.Value} (h : ∀ a, k ≠ .ownerVaults a) :
    (s.assign k o).owned = s.owned := by
  funext b
  simp [owned, (h b).symm]

@[simp] theorem inherited_assign {o : Option k.Value} (h : ∀ a, k ≠ .beneficiaryVaults a) :
    (s.assign k o).inherited = s.inherited := by
  funext b
  simp [inherited, (h b).symm]

@[simp] theorem owned_transferAll {log : Log} : (s.transferAll log).owned = s.owned := rfl

@[simp] theorem inherited_transferAll {log : Log} : (s.transferAll log).inherited = s.inherited :=
  rfl

@[simp] theorem owned_pay {token source dest : Address} {amount : Int} :
    (s.pay token source dest amount).owned = s.owned := rfl

@[simp] theorem inherited_pay {token source dest : Address} {amount : Int} :
    (s.pay token source dest amount).inherited = s.inherited := rfl

/-- Saving a vault files that vault only. -/
theorem filedUnder_of_vault (h : ∀ i, t.vault i = if i = id then some w else s.vault i) :
    t.filedUnder field = Function.update (s.filedUnder field) id (w.filedUnder field) := by
  funext i
  by_cases hi : i = id
  · subst hi
    simp [filedUnder, h]
  · simp [filedUnder, h, hi]

end State

theorem filedUnder_of_some (hv : s.vault id = some v) :
    s.filedUnder field id = v.filedUnder field := by
  simp [State.filedUnder, hv]

theorem filedUnder_live (h : v.status ≠ .cancelled) : v.filedUnder field = some (field v) :=
  if_neg h

theorem filedUnder_cancelled (h : v.status = .cancelled) : v.filedUnder field = none := if_pos h

namespace IndexesMirror

/-- What the indexes say does not depend on anything else. -/
theorem congr (h : IndexesMirror s) (howned : t.owned = s.owned)
    (hinherited : t.inherited = s.inherited)
    (hfiled : ∀ i, t.filedUnder (·.owner) i = s.filedUnder (·.owner) i ∧
      t.filedUnder (·.beneficiary) i = s.filedUnder (·.beneficiary) i) : IndexesMirror t :=
  ⟨howned ▸ h.owners.congr fun i => (hfiled i).1,
    hinherited ▸ h.beneficiaries.congr fun i => (hfiled i).2⟩

theorem of_vaults (h : IndexesMirror s) (howned : t.owned = s.owned)
    (hinherited : t.inherited = s.inherited) (hvault : ∀ i, t.vault i = s.vault i) :
    IndexesMirror t :=
  h.congr howned hinherited fun i => by simp [State.filedUnder, hvault i]

theorem put (h : IndexesMirror s) (hk : k.area ≠ .indexes) (hv : k.area ≠ .vaults) :
    IndexesMirror (s.put k x) :=
  h.of_vaults (State.owned_put fun _ he => hk (he ▸ rfl))
    (State.inherited_put fun _ he => hk (he ▸ rfl))
    fun _ => State.vault_put fun _ he => hv (he ▸ rfl)

theorem erase (h : IndexesMirror s) (hk : k.area ≠ .indexes) (hv : k.area ≠ .vaults) :
    IndexesMirror (s.erase k) :=
  h.of_vaults (State.owned_erase fun _ he => hk (he ▸ rfl))
    (State.inherited_erase fun _ he => hk (he ▸ rfl))
    fun _ => State.vault_erase fun _ he => hv (he ▸ rfl)

/-- Saving a record with the same owner, beneficiary and status. -/
theorem save (h : IndexesMirror s) (hv : s.vault id = some v) (howner : w.owner = v.owner)
    (hheir : w.beneficiary = v.beneficiary) (hstatus : w.status = v.status) :
    IndexesMirror (s.put (.vault id) w) := by
  refine h.congr (State.owned_put (by simp)) (State.inherited_put (by simp)) fun i => ?_
  by_cases hi : i = id
  · subst hi
    simp [State.filedUnder, Vault.filedUnder, hv, howner, hheir, hstatus]
  · simp [State.filedUnder, hi]

/-- A new vault is listed under its owner and its beneficiary. -/
theorem create (h : IndexesMirror s) (hnone : s.vault id = none) (hw : w.status = .locked)
    (hvault : ∀ i, t.vault i = if i = id then some w else s.vault i)
    (howned : t.owned = Function.update s.owned w.owner (s.owned w.owner ++ [id]))
    (hinherited : t.inherited =
      Function.update s.inherited w.beneficiary (s.inherited w.beneficiary ++ [id])) :
    IndexesMirror t := by
  have hlive : w.status ≠ .cancelled := by simp [hw]
  constructor
  · rw [howned, State.filedUnder_of_vault hvault, filedUnder_live hlive]
    exact h.owners.file (by simp [State.filedUnder, hnone])
  · rw [hinherited, State.filedUnder_of_vault hvault, filedUnder_live hlive]
    exact h.beneficiaries.file (by simp [State.filedUnder, hnone])

/-- A cancelled vault is taken off under its owner and its beneficiary. -/
theorem cancel (h : IndexesMirror s) (hv : s.vault id = some v) (hw : w.status = .cancelled)
    (hvault : ∀ i, t.vault i = if i = id then some w else s.vault i)
    (howned : t.owned = Function.update s.owned v.owner (without id (s.owned v.owner)))
    (hinherited : t.inherited =
      Function.update s.inherited v.beneficiary (without id (s.inherited v.beneficiary))) :
    IndexesMirror t := by
  have honly : ∀ field a, s.filedUnder field id = some a → a = field v := by
    intro field a ha
    rw [filedUnder_of_some hv, Vault.filedUnder] at ha
    split at ha
    · cases ha
    · exact (Option.some.inj ha).symm
  constructor
  · rw [howned, State.filedUnder_of_vault hvault, filedUnder_cancelled hw]
    exact h.owners.remove (honly _)
  · rw [hinherited, State.filedUnder_of_vault hvault, filedUnder_cancelled hw]
    exact h.beneficiaries.remove (honly _)

/-- One field of a vault that is not cancelled changes. -/
theorem field_move {index : Address → List Nat} (h : Mirrors index (s.filedUnder field))
    (hv : s.vault id = some v) (hlive : v.status = .cancelled → field w = field v)
    (hw : w.status = v.status) (hvault : ∀ i, t.vault i = if i = id then some w else s.vault i) :
    Mirrors (if field v ≠ field w then Function.update
      (Function.update index (field v) (without id (index (field v)))) (field w)
        (index (field w) ++ [id]) else index) (t.filedUnder field) := by
  rw [State.filedUnder_of_vault hvault]
  split
  · next hne =>
      have hv' : v.status ≠ .cancelled := fun hc => hne (hlive hc).symm
      rw [filedUnder_live (hw ▸ hv')]
      exact h.move ((filedUnder_of_some hv).trans (filedUnder_live hv')) hne
  · next heq =>
      have hsame : w.filedUnder field = v.filedUnder field := by
        simp [Vault.filedUnder, hw, not_not.mp heq]
      rw [hsame, ← filedUnder_of_some hv, Function.update_eq_self]
      exact h

end IndexesMirror

/-! ## What the operations do to the indexes -/

theorem wp_storeNewVault_mirror (h : IndexesMirror s) (hnum : s.Numbered) (hv : v.status = .locked) :
    wp (storeNewVault (s.count + 1) v) (fun _ t => IndexesMirror t) e s := by
  simp only [storeNewVault, Tx.wp_bind, wp_saveVault, wp_listOwned, wp_listInherited, wp_storageSet]
  exact h.create (hnum _ (Nat.lt_succ_self _)) hv (by simp) (by simp) (by simp)

theorem wp_changeOwner_mirror (h : IndexesMirror s) (hv : s.vault id = some v)
    (hlive : v.status = .cancelled → a = v.owner) :
    wp (changeOwner id v a) (fun _ t => IndexesMirror t) e s := by
  have hmove : ∀ t : State, (∀ i, t.vault i = if i = id then some (v.withOwner a) else s.vault i) → _ :=
    fun t => IndexesMirror.field_move h.owners hv (w := v.withOwner a) hlive rfl
  have hkeep : ∀ t : State, (∀ i, t.vault i = if i = id then some (v.withOwner a) else s.vault i) → _ :=
    fun t => IndexesMirror.field_move h.beneficiaries hv (w := v.withOwner a) (fun _ => rfl) rfl
  simp only [changeOwner, Tx.wp_bind, Tx.wp_onlyIf, wp_unlistOwned, wp_listOwned, wp_saveVault]
  refine ⟨fun hne => ⟨?_, ?_⟩, fun heq => ⟨?_, ?_⟩⟩
  · simpa [hne, Ne.symm hne] using hmove _ (by simp)
  · simpa using hkeep _ (by simp)
  · simpa [not_not.mp heq] using hmove _ (by simp)
  · simpa using hkeep _ (by simp)

/-- The two ways to replace the beneficiary save the record first. -/
theorem wp_moveBeneficiaryIndex_mirror (h : IndexesMirror s) (hv : s.vault id = some v)
    (hlive : v.status = .cancelled → a = v.beneficiary) :
    wp (moveBeneficiaryIndex id v.beneficiary a) (fun _ t => IndexesMirror t) e
      (s.put (.vault id) (v.withBeneficiary a)) := by
  have hkeep : ∀ t : State,
      (∀ i, t.vault i = if i = id then some (v.withBeneficiary a) else s.vault i) → _ :=
    fun t => IndexesMirror.field_move h.owners hv (w := v.withBeneficiary a) (fun _ => rfl) rfl
  have hmove : ∀ t : State,
      (∀ i, t.vault i = if i = id then some (v.withBeneficiary a) else s.vault i) → _ :=
    fun t => IndexesMirror.field_move h.beneficiaries hv (w := v.withBeneficiary a) hlive rfl
  simp only [moveBeneficiaryIndex, Tx.wp_bind, Tx.wp_onlyIf, wp_unlistInherited, wp_listInherited]
  refine ⟨fun hne => ⟨?_, ?_⟩, fun heq => ⟨?_, ?_⟩⟩
  · simpa using hkeep _ (by simp)
  · simpa [hne, Ne.symm hne] using hmove _ (by simp)
  · simpa using hkeep _ (by simp)
  · simpa [not_not.mp heq] using hmove _ (by simp)

theorem createVault_mirror (h : IndexesMirror s) (hnum : s.Numbered) {o b : Address} {i : Nat}
    {token : Option Address} :
    wp (createVault o b i token) (fun _ t => IndexesMirror t) e s := by
  simp [createVault, resolveVaultToken, nextVaultId]
  intros
  refine ⟨fun _ _ _ _ _ => ?_, fun _ _ _ _ => ?_⟩ <;>
    exact Tx.wp_mono (wp_storeNewVault_mirror h hnum rfl) fun _ t ht =>
      ((ht.put (by simp) (by simp)).put (by simp) (by simp)).put (by simp) (by simp)

theorem createVaultFromInheritance_mirror (h : IndexesMirror s) (hnum : s.Numbered) {p i : Nat}
    {caller b : Address} {token : Option Address} :
    wp (createVaultFromInheritance p caller b i token) (fun _ t => IndexesMirror t) e s := by
  simp [createVaultFromInheritance, resolveVaultToken, nextVaultId]
  intros
  refine ⟨fun _ _ _ _ _ => ?_, fun _ _ _ _ => ?_⟩ <;> exact wp_storeNewVault_mirror h hnum rfl

theorem cloneVault_mirror (h : IndexesMirror s) (hnum : s.Numbered) {source : Nat} {o b : Address} :
    wp (cloneVault source o b) (fun _ t => IndexesMirror t) e s := by
  simp [cloneVault, loadCloneSource, nextVaultId]
  intros
  exact wp_storeNewVault_mirror h hnum rfl

theorem cloneVaultWithOverrides_mirror (h : IndexesMirror s) (hnum : s.Numbered) {source : Nat}
    {o b : Address} {i : Option Nat} {bs : Option (List BeneficiaryEntry)} {m : Option String} :
    wp (cloneVaultWithOverrides source o b i bs m) (fun _ t => IndexesMirror t) e s := by
  simp [cloneVaultWithOverrides, loadCloneSource, nextVaultId]
  intros
  refine wp_resolveBeneficiariesOverride fun _ _ => ?_
  intros
  exact wp_storeNewVault_mirror h hnum rfl

theorem cancelVault_mirror (h : IndexesMirror s) :
    wp (cancelVault id a) (fun _ t => IndexesMirror t) e s := by
  simp only [cancelVault, Tx.wp_bind, wp_loadPaused, wp_require, wp_requireAuth, wp_loadVault,
    wp_storageGet, Tx.wp_onlyIf, wp_transfer, wp_saveVault, wp_unlistOwned, wp_unlistInherited,
    wp_storageRemove, wp_recordStateTransition]
  intro _ _ v hv _ _ _ _
  refine ⟨fun _ _ => ?_, fun _ => ?_⟩ <;>
    exact h.cancel hv (w := (v.withBalance 0).withStatus .cancelled) rfl (by simp) (by simp) (by simp)

theorem drainMergeSource_mirror (h : IndexesMirror s) {balance : Int} :
    wp (drainMergeSource balance id) (fun _ t => IndexesMirror t) e s := by
  simp only [drainMergeSource, Tx.wp_bind, wp_loadVault, wp_checkedAdd, wp_saveVault,
    wp_unlistOwned, wp_unlistInherited, Tx.wp_pure]
  intro v hv _
  exact h.cancel hv (w := (v.withBalance 0).withStatus .cancelled) rfl (by simp) (by simp) (by simp)

theorem mergeVaults_mirror (h : IndexesMirror s) {target : Nat} {sources : List Nat} :
    wp (mergeVaults target sources a) (fun _ t => IndexesMirror t) e s := by
  simp only [mergeVaults, Tx.wp_bind, wp_assertNotPaused, wp_loadLockedByOwner]
  intro _ _ v hv _ _
  refine Tx.wp_mono validateMergeSources_spec ?_
  rintro _ u ⟨hu, hsources⟩
  obtain rfl := hu.symm
  simp only [wp_loadVault, hv, Option.some.injEq, forall_eq']
  refine Tx.wp_mono (Tx.wp_foldEach
    (I := fun _ t => IndexesMirror t ∧ t.vault target = some v) ?_ ⟨h, hv⟩) ?_
  · rintro i hi balance t ⟨hI, htarget⟩
    refine Tx.wp_mono (Tx.wp_and (drainMergeSource_mirror hI) drainMergeSource_spec) ?_
    rintro _ u ⟨hmirror, _, htx, -⟩
    refine ⟨hmirror, ?_⟩
    rw [htx.after, if_neg fun he => (hsources i hi).1 he.symm]
    exact htarget
  · rintro balance t ⟨hI, htarget⟩
    exact wp_saveVault.mpr (hI.save htarget (w := v.withBalance balance) rfl rfl rfl)

theorem transferOwnership_mirror (h : IndexesMirror s) {caller : Address} :
    wp (transferOwnership id caller a) (fun _ t => IndexesMirror t) e s := by
  simp only [transferOwnership, Tx.wp_bind, wp_loadPaused, wp_require, wp_loadLockedByOwner]
  intro _ _ v hv _ hlocked _
  exact wp_changeOwner_mirror h hv (by simp [hlocked])

theorem acceptOwnershipTransfer_mirror (h : IndexesMirror s) :
    wp (acceptOwnershipTransfer id a) (fun _ t => IndexesMirror t) e s := by
  simp only [acceptOwnershipTransfer, Tx.wp_bind, wp_loadPaused, wp_require, wp_requireAuth,
    wp_storageGet, Tx.wp_fromSome, wp_timestamp, wp_loadVault, wp_storageRemove]
  intro _ _ _ _ _ _ _ v hv hlocked
  exact Tx.wp_mono (wp_changeOwner_mirror h hv (by simp [hlocked])) fun _ t ht =>
    ht.erase (by simp) (by simp)

/-- The pending update of the beneficiary of vault `id` does not move a cancelled vault. -/
def State.UpdatesLive (s : State) (id : Nat) : Prop :=
  ∀ v p, s.vault id = some v → v.status = .cancelled →
    s.get (.pendingBeneficiaryUpdate id) = some p → p.newBeneficiary = v.beneficiary

theorem applyBeneficiaryUpdate_mirror (h : IndexesMirror s) (hlive : s.UpdatesLive id) :
    wp (applyBeneficiaryUpdate id a) (fun _ t => IndexesMirror t) e s := by
  simp only [applyBeneficiaryUpdate, Tx.wp_bind, wp_requireAuth, wp_loadVault, wp_require,
    wp_storageGet, Tx.wp_fromSome, wp_timestamp, Tx.wp_onlyIf, wp_assertBeneficiaryCapacity,
    wp_saveVault, wp_storageRemove]
  intro _ v hv _ p hp _
  have hmove : wp (moveBeneficiaryIndex id v.beneficiary p.newBeneficiary)
      (fun _ t => IndexesMirror (t.erase (.pendingBeneficiaryUpdate id))) e
      (s.put (.vault id) (v.withBeneficiary p.newBeneficiary)) :=
    Tx.wp_mono (wp_moveBeneficiaryIndex_mirror h hv fun hc => hlive v p hv hc hp) fun _ t ht =>
      ht.erase (by simp) (by simp)
  exact ⟨fun _ _ _ => hmove, fun _ => hmove⟩

/-- Proposal `pid` of vault `id` does not move a cancelled vault: if the vault is cancelled, the
proposal names the beneficiary or owner that it has. -/
def State.ExecutesLive (s : State) (id pid : Nat) : Prop :=
  ∀ v p, s.vault id = some v → v.status = .cancelled →
    s.get (.multiSigProposal id pid) = some p →
      (p.operation = .updateBeneficiary → p.addressPayload = some v.beneficiary) ∧
      (p.operation = .transferOwnership → p.addressPayload = some v.owner)

theorem performOperation_mirror {p : MultiSigProposal} (h : IndexesMirror s)
    (hv : s.vault id = some v)
    (hheir : v.status = .cancelled → p.operation = .updateBeneficiary →
      p.addressPayload = some v.beneficiary)
    (howner : v.status = .cancelled → p.operation = .transferOwnership →
      p.addressPayload = some v.owner) :
    wp (performOperation id v p p.operation) (fun _ t => IndexesMirror t) e s := by
  cases hop : p.operation with
  | withdraw =>
      simp only [performOperation, doWithdraw, Tx.wp_bind, wp_decodeI128, wp_require, wp_transfer,
        wp_i128, wp_saveVault]
      intro amount _ _ _ _ _
      have hpaid : IndexesMirror (s.pay v.tokenAddress currentContractAddress v.owner amount) :=
        h.of_vaults rfl rfl fun _ => rfl
      exact hpaid.save (w := v.withBalance (v.balance - amount)) hv rfl rfl rfl
  | updateBeneficiary =>
      simp only [performOperation, Tx.wp_bind, Tx.wp_fromSome, wp_require, wp_saveVault]
      intro a ha _
      refine wp_moveBeneficiaryIndex_mirror h hv fun hc => ?_
      exact Option.some.inj (ha.symm.trans (hheir hc hop))
  | cancelVault =>
      simp only [performOperation, payShare, Tx.wp_bind, Tx.wp_onlyIf, wp_transfer, wp_saveVault,
        wp_unlistOwned, wp_unlistInherited]
      refine ⟨fun _ _ => ?_, fun _ => ?_⟩ <;>
        exact h.cancel hv (w := (v.withBalance 0).withStatus .cancelled) rfl (by simp) (by simp)
          (by simp)
  | transferOwnership =>
      simp only [performOperation, Tx.wp_bind, Tx.wp_fromSome, wp_require]
      intro a ha _
      refine wp_changeOwner_mirror h hv fun hc => ?_
      exact Option.some.inj (ha.symm.trans (howner hc hop))
  | updateCheckInInterval =>
      simp only [performOperation, Tx.wp_bind, wp_decodeU64, wp_require, wp_assertIntervalInBounds,
        wp_timestamp, wp_saveVault]
      intros
      exact h.save hv rfl rfl rfl

theorem executeMultisig_mirror (h : IndexesMirror s) {pid : Nat} (hlive : s.ExecutesLive id pid) :
    wp (executeMultisig id pid a) (fun _ t => IndexesMirror t) e s := by
  simp only [executeMultisig, loadExecutable, Tx.wp_bind, wp_requireAuth, wp_loadVault, wp_require,
    wp_loadProposal, wp_timestamp, Tx.wp_pure, wp_storageSet]
  intro _ v hv _ p hp _ _
  have hmarked : IndexesMirror (s.put (.multiSigProposal id pid) { p with status := .executed }) :=
    h.put (by simp) (by simp)
  refine Tx.wp_mono (performOperation_mirror hmarked (by simpa using hv)
    (fun hc => (hlive v p hv hc hp).1) fun hc => (hlive v p hv hc hp).2) fun _ t ht => ?_
  simp only [wp_removeFromOpenProposals]
  exact ⟨fun _ _ => ht.put (by simp) (by simp), fun _ => ht⟩

/-- A check-in writes the owner's index back as it was. -/
theorem checkIn_indexes {hash : Bytes32} {nonce : Nat} :
    wp (checkIn id a hash nonce) (fun _ t => t.owned = s.owned ∧ t.inherited = s.inherited) e s := by
  simp only [checkIn, Tx.wp_bind]
  have hprepare : wp (prepareCheckIn id a hash nonce)
      (fun _ t => t.owned = s.owned ∧ t.inherited = s.inherited) e s := by
    simp [prepareCheckIn, spendDelegateNonce]
    intros
    refine ⟨fun _ _ _ _ => ?_, fun _ => ?_⟩ <;> intros <;>
      refine Tx.wp_mono payInactivityPenalty_spec ?_ <;>
      rintro _ _ ⟨log, rfl, -⟩ <;> simp
  refine Tx.wp_mono hprepare fun v t ht => ?_
  simp only [wp_timestamp, wp_assertMaxTtl, wp_saveVault, wp_touchOwned, wp_storageSet,
    wp_recordCheckInHistory, wp_updateCheckInStreak]
  intros
  simp [ht]

theorem checkInWithPow_indexes {hash : Bytes32} {nonce difficulty : Nat} :
    wp (checkInWithPow id a hash nonce difficulty)
      (fun _ t => t.owned = s.owned ∧ t.inherited = s.inherited) e s := by
  simp only [checkInWithPow, Tx.wp_bind, wp_loadPaused, wp_require, wp_requireAuth, wp_loadVault,
    wp_isCheckInDelegate, wp_timestamp, wp_validatePasskeyForCheckin, wp_verifyPow, wp_assertMaxTtl,
    wp_saveVault, wp_touchOwned, wp_recordCheckInHistory, wp_updateCheckInStreak]
  intros
  simp

/-! ## The invariant -/

/-- The call moves no cancelled vault to another address, and does not release a vault
whose acceptance has lapsed. -/
def IndexesKept (s : State) (e : Env) : Call → Prop
  | .heir (.applyBeneficiaryUpdate id _) => s.UpdatesLive id
  | .multisig (.executeMultisig id pid _) => s.ExecutesLive id pid
  | .release (.triggerRelease id) | .release (.triggerReleaseManual id)
  | .release (.panicRelease id _) => ¬ s.acceptanceLapsed id e.timestamp
  | _ => True

/-- The calls that write an index, or a field that one depends on. -/
def Call.Listing : Call → Prop
  | .vault (.cancelVault ..) | .vault (.mergeVaults ..) | .heir (.applyBeneficiaryUpdate ..)
  | .ownership (.transferOwnership ..) | .ownership (.acceptOwnershipTransfer ..)
  | .multisig (.executeMultisig ..) | .checkIn (.checkIn ..) | .checkIn (.checkInWithGeo ..)
  | .checkIn (.checkInWithPow ..) | .release (.triggerRelease ..)
  | .release (.triggerReleaseManual ..) | .release (.panicRelease ..)
  | .release (.revealBeneficiary ..) => True
  | _ => False

theorem Call.not_listing (hc : ¬ c.Creating) (hl : ¬ c.Listing) :
    (.owner ∉ (c.footprint s).parts ∧ .beneficiary ∉ (c.footprint s).parts ∧
      .status ∉ (c.footprint s).parts) ∧ .indexes ∉ (c.footprint s).areas := by
  cases c with
  | admin c => simp [Call.footprint]
  | vault c =>
      cases c <;> first
        | exact absurd trivial hc
        | exact absurd trivial hl
        | simp [Call.footprint, VaultCall.footprint]
  | withdrawal c => cases c <;> simp [Call.footprint, WithdrawalCall.footprint]
  | checkIn c =>
      cases c <;> first | exact absurd trivial hl | simp [Call.footprint, CheckInCall.footprint]
  | heir c =>
      cases c <;> first | exact absurd trivial hl | simp [Call.footprint, HeirCall.footprint]
  | ownership c =>
      cases c <;> first | exact absurd trivial hl | simp [Call.footprint, OwnershipCall.footprint]
  | release c =>
      cases c <;> first | exact absurd trivial hl | simp [Call.footprint, ReleaseCall.footprint]
  | vesting c => cases c <;> simp [Call.footprint, VestingCall.footprint]
  | multisig c =>
      cases c <;> first | exact absurd trivial hl | simp [Call.footprint, MultisigCall.footprint]
  | passkey c => cases c <;> simp [Call.footprint, PasskeyCall.footprint]
  | lending c => cases c <;> simp [Call.footprint, LendingCall.footprint]

/-- The indexes say the same of every vault that keeps its owner, beneficiary and status. -/
theorem IndexesMirror.of_frame {f : Footprint} (h : IndexesMirror s) (hframe : Frame f s t)
    (howned : t.owned = s.owned) (hinherited : t.inherited = s.inherited)
    (hcreation : .creation ∉ f.parts) (howner : .owner ∉ f.parts) (hheir : .beneficiary ∉ f.parts)
    (hstatus : .status ∉ f.parts) : IndexesMirror t := by
  refine h.congr howned hinherited fun i => ?_
  cases hv : s.vault i with
  | none => simp [State.filedUnder, hv, hframe.created.resolve_left hcreation i hv]
  | some v =>
      obtain ⟨w, hw, hagree⟩ := hframe.kept i v hv
      simp [State.filedUnder, Vault.filedUnder, hv, hw, hagree.owner.resolve_left howner,
        hagree.beneficiary.resolve_left hheir,
        hagree.status.resolve_right fun hs => hstatus hs.1]

/-- A check-in changes neither the owner nor the beneficiary nor the status. -/
theorem IndexesMirror.checkIn {o : CheckInCall} (h : IndexesMirror s)
    (hframe : Frame ((Call.checkIn o).footprint s) s t) (howned : t.owned = s.owned)
    (hinherited : t.inherited = s.inherited) : IndexesMirror t := by
  refine h.of_frame hframe howned hinherited ?_ ?_ ?_ ?_
  all_goals cases o <;> simp [Call.footprint, CheckInCall.footprint]

/-- A vault that is released stays listed. -/
theorem IndexesMirror.release {f : Footprint} (h : IndexesMirror s) (hframe : Frame f s t)
    (hvaults : f.vaults = [id]) (harea : .indexes ∉ f.areas) (hv : s.vault id = some v)
    (hlocked : v.status = .locked) (hw : t.vault id = some w) (howner : w.owner = v.owner)
    (hheir : w.beneficiary = v.beneficiary) (hlive : w.status ≠ .cancelled) : IndexesMirror t := by
  refine h.congr (funext fun b => ?_) (funext fun b => ?_) fun i => ?_
  · simp [State.owned, hframe.get_of_area (k := .ownerVaults b) (by simpa using harea)]
  · simp [State.inherited, hframe.get_of_area (k := .beneficiaryVaults b) (by simpa using harea)]
  · by_cases hi : i = id
    · subst hi
      simp [State.filedUnder, Vault.filedUnder, hv, hw, howner, hheir, hlive, hlocked]
    · have hsame : t.vault i = s.vault i := hframe.vault_eq (by simpa [hvaults] using hi)
      simp [State.filedUnder, hsame]

/-- The calls that write an index, or a field that one depends on, keep the indexes exact. -/
theorem indexes_listing (h : IndexesMirror s) (hl : c.Listing) (hguard : IndexesKept s e c)
    (hframe : Frame (c.footprint s) s t) (hexec : exec c e s = .ok ((), t)) : IndexesMirror t := by
  have hreleased : ∀ {id : Nat} (o : ReleaseCall), o.footprint = releaseFootprint id →
      execRelease o e s = .ok ((), t) → Frame (releaseFootprint id) s t →
      ¬ s.acceptanceLapsed id e.timestamp → IndexesMirror t := by
    intro id o ho hexec hframe hlapsed
    obtain ⟨v, w, hstatus⟩ := execRelease_status ho _ _ hexec
    exact h.release hframe rfl (by simp [releaseFootprint]) hstatus.before hstatus.locked
      hstatus.after hstatus.owner hstatus.beneficiary fun hc => hlapsed (hstatus.cancelled.mp hc)
  cases c with
  | vault c =>
      cases c with
      | cancelVault => exact cancelVault_mirror h _ _ hexec
      | mergeVaults => exact mergeVaults_mirror h _ _ hexec
      | _ => exact hl.elim
  | checkIn c =>
      cases c with
      | checkIn =>
          obtain ⟨howned, hinherited⟩ := checkIn_indexes _ _ hexec
          exact h.checkIn hframe howned hinherited
      | checkInWithGeo =>
          obtain ⟨howned, hinherited⟩ := checkIn_indexes _ _ hexec
          exact h.checkIn hframe howned hinherited
      | checkInWithPow =>
          obtain ⟨howned, hinherited⟩ := checkInWithPow_indexes _ _ hexec
          exact h.checkIn hframe howned hinherited
      | _ => exact hl.elim
  | heir c =>
      cases c with
      | applyBeneficiaryUpdate => exact applyBeneficiaryUpdate_mirror h hguard _ _ hexec
      | _ => exact hl.elim
  | ownership c =>
      cases c with
      | transferOwnership => exact transferOwnership_mirror h _ _ hexec
      | acceptOwnershipTransfer => exact acceptOwnershipTransfer_mirror h _ _ hexec
      | _ => exact hl.elim
  | multisig c =>
      cases c with
      | executeMultisig => exact executeMultisig_mirror h hguard _ _ hexec
      | _ => exact hl.elim
  | release c =>
      cases c with
      | triggerRelease id => exact hreleased (.triggerRelease id) rfl hexec hframe hguard
      | triggerReleaseManual id => exact hreleased (.triggerReleaseManual id) rfl hexec hframe hguard
      | panicRelease id a => exact hreleased (.panicRelease id a) rfl hexec hframe hguard
      | revealBeneficiary id p a =>
          obtain ⟨v, htx, hlocked, -⟩ := revealBeneficiary_spec _ _ hexec
          exact h.release hframe rfl (by simp [Call.footprint, ReleaseCall.footprint]) htx.before
            hlocked ((htx.after id).trans (if_pos rfl)) rfl rfl (by simp)
      | _ => exact hl.elim
  | _ => exact hl.elim

/-- One call keeps the indexes exact. -/
theorem indexes_call (h : IndexesMirror s) (hnum : s.Numbered) (hguard : IndexesKept s e c) :
    wp (exec c) (fun _ t => IndexesMirror t) e s := by
  intro _ t hexec
  have hframe : Frame (c.footprint s) s t := exec_frame c hnum _ _ hexec
  by_cases hc : c.Creating
  · cases c with
    | vault c =>
        cases c with
        | createVault o b i token =>
            obtain ⟨n, hn⟩ : ∃ n, createVault o b i token e s = .ok (n, t) := by
              simpa [exec, execVault] using hexec
            exact createVault_mirror h hnum _ _ hn
        | createVaultFromInheritance p a b i token =>
            obtain ⟨n, hn⟩ : ∃ n, createVaultFromInheritance p a b i token e s = .ok (n, t) := by
              simpa [exec, execVault] using hexec
            exact createVaultFromInheritance_mirror h hnum _ _ hn
        | cloneVault source o b =>
            obtain ⟨n, hn⟩ : ∃ n, cloneVault source o b e s = .ok (n, t) := by
              simpa [exec, execVault] using hexec
            exact cloneVault_mirror h hnum _ _ hn
        | cloneVaultWithOverrides source o b i bs m =>
            obtain ⟨n, hn⟩ : ∃ n, cloneVaultWithOverrides source o b i bs m e s = .ok (n, t) := by
              simpa [exec, execVault] using hexec
            exact cloneVaultWithOverrides_mirror h hnum _ _ hn
        | _ => exact hc.elim
    | _ => exact hc.elim
  · by_cases hl : c.Listing
    · exact indexes_listing h hl hguard hframe hexec
    · obtain ⟨⟨howner, hheir, hstatus⟩, harea⟩ := Call.not_listing (s := s) hc hl
      refine h.of_frame hframe (funext fun b => ?_) (funext fun b => ?_) (Call.not_creation hc).1
        howner hheir hstatus
      · simp [State.owned, hframe.get_of_area (k := .ownerVaults b) (by simpa using harea)]
      · simp [State.inherited, hframe.get_of_area (k := .beneficiaryVaults b) (by simpa using harea)]

end Indexes

/-- In every run in which no cancelled vault is moved to another address and no vault with a
lapsed acceptance is released, the indexes list every vault exactly under its owner and its
beneficiary, and list no cancelled vault. -/
theorem indexes_mirror {w₀ w : World} {ks : List Event} (h₀ : Genesis w₀)
    (hrun : Run (Guarded Step (OnCalls IndexesKept)) w₀ ks w) (n : Nat) (v : Vault)
    (hv : w.state.vault n = some v) (a : Address) : w.state.ListsExactly n v a := by
  have hmirror : IndexesMirror w.state := by
    refine invariant_of_calls (I := fun s : State => IndexesMirror s) h₀ hrun ?_
      (fun hnum hI hguard => indexes_call hI hnum hguard)
      fun l hI => hI.of_vaults rfl rfl fun _ => rfl
    refine ⟨fun a n => ?_, fun a n => ?_⟩
    · simp [State.owned, State.filedUnder, h₀.vault, h₀.get (k := .ownerVaults a) (by simp)]
    · simp [State.inherited, State.filedUnder, h₀.vault, h₀.get (k := .beneficiaryVaults a) (by simp)]
  have hcount := hmirror.owners a n
  have hcount' := hmirror.beneficiaries a n
  rw [filedUnder_of_some hv] at hcount hcount'
  refine ⟨fun hlive => ?_, fun hlive => ?_, fun hcancelled => ?_⟩
  · simpa [filedUnder_live hlive] using hcount
  · simpa [filedUnder_live hlive] using hcount'
  · rw [filedUnder_cancelled hcancelled] at hcount hcount'
    exact ⟨List.count_eq_zero.mp (by simpa using hcount),
      List.count_eq_zero.mp (by simpa using hcount')⟩

/-- A vault that changes hands is listed under its new owner, once. -/
theorem indexes_mirror_transferred : ∃ w : World, ∃ v : Vault, Reachable w ∧
    w.state.vault 1 = some v ∧ v.owner = ⟨3⟩ ∧ w.state.ListsExactly 1 v ⟨3⟩ := by
  have hplay : (play (initialised ⟨8⟩ ⟨9⟩)
      [opensVault 100,
        (signedBy [⟨1⟩] 1, .ownership (.transferOwnership 1 ⟨1⟩ ⟨3⟩))]).any
      (fun w => (w.state.vault 1).any (fun v => v.owner = ⟨3⟩)) = true := by decide +kernel
  obtain ⟨w, hw, hchecks⟩ := (Option.any_eq_true _ _).mp hplay
  obtain ⟨v, hv, howner⟩ : ∃ v, w.state.vault 1 = some v ∧ v.owner = ⟨3⟩ := by
    simpa [Option.any_eq_true] using hchecks
  exact ⟨w, v, reachable_of_play hw, hv, howner,
    indexes_mirror (genesis_initialised (by decide) (by decide))
      (guarded_of_play (by simp [IndexesKept]) hw) 1 v hv ⟨3⟩⟩

/-- The owner of a cancelled vault applies an update of the beneficiary that he had asked
for before; the cancelled vault is listed under the new beneficiary. -/
theorem update_lists_cancelled : ¬ ∀ (w : World) (n : Nat) (v : Vault) (a : Address),
    Reachable w → w.state.vault n = some v → w.state.ListsExactly n v a := by
  have hplay : (play (initialised ⟨8⟩ ⟨9⟩)
      [opensVault 100,
        (signedBy [⟨1⟩] 0, .heir (.updateBeneficiary 1 ⟨1⟩ ⟨3⟩)),
        (signedBy [⟨1⟩] 1, .vault (.cancelVault 1 ⟨1⟩)),
        (signedBy [⟨1⟩] oneDay, .heir (.applyBeneficiaryUpdate 1 ⟨1⟩))]).any
      (fun w => (w.state.vault 1).any (fun v => v.status = .cancelled) ∧
        1 ∈ w.state.inherited ⟨3⟩) = true := by decide +kernel
  obtain ⟨w, hw, hchecks⟩ := (Option.any_eq_true _ _).mp hplay
  simp only [decide_eq_true_eq] at hchecks
  obtain ⟨v, hv, hcancelled⟩ : ∃ v, w.state.vault 1 = some v ∧ v.status = .cancelled := by
    simpa [Option.any_eq_true] using hchecks.1
  intro h
  exact ((h w 1 v ⟨3⟩ (reachable_of_play hw) hv).cancelled hcancelled).2 hchecks.2

end Heirloom
