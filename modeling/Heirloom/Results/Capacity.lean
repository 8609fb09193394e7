import Heirloom.Results.Indexes

/-!
# The capacity limits

The admin limits how many vaults an owner and a beneficiary may have. The limits are
checked when a vault is created and when an update of the beneficiary is applied.
Vaults also arrive by cloning, by inheritance, by a change of the owner and by a
proposal of the signers, and there nothing is checked: the limits hold along a run
exactly as far as these calls find room (`capacity_kept`), and a clone breaks one
(`clone_exceeds_limit`).
-/

namespace Heirloom

open Transaction Runs MirrorIndex

/-- `get_owner_vault_limit`. -/
def State.ownerLimit (s : State) : Nat := (s.get (.ownerVaultCount currentContractAddress)).getD 0

/-- `get_beneficiary_vault_limit`. -/
def State.beneficiaryLimit (s : State) : Nat := (s.get .beneficiaryVaultLimit).getD 0

/-- Nobody has more vaults than the limits allow: `m` for an owner, `k` for a beneficiary, where
zero stands for no limit. -/
structure WithinLimits (m k : Nat) (s : State) : Prop where
  owners : Fits m s.owned
  beneficiaries : Fits k s.inherited

/-- The owner `a` may have one more vault: the limit for owners is zero, or above the length of the
owner's index. -/
def State.OwnerRoom (s : State) (a : Address) : Prop := Room s.ownerLimit (s.owned a)

/-- The beneficiary `a` may have one more vault: the limit for beneficiaries is zero, or above the
length of their index. -/
def State.HeirRoom (s : State) (a : Address) : Prop := Room s.beneficiaryLimit (s.inherited a)

/-- There is room for vault `id` under the owner `a`, unless it is there already and nothing moves.
-/
def State.OwnerMoves (s : State) (id : Nat) (a : Address) : Prop :=
  ∀ v, s.vault id = some v → v.owner ≠ a → s.OwnerRoom a

/-- There is room for what proposal `pid` of vault `id` moves: for a transfer under the new owner,
and for a new beneficiary under the one that the proposal names. -/
def State.ProposalMoves (s : State) (id pid : Nat) : Prop :=
  ∀ v p a, s.vault id = some v → s.get (.multiSigProposal id pid) = some p →
    p.addressPayload = some a →
      (p.operation = .transferOwnership → v.owner ≠ a → s.OwnerRoom a) ∧
      (p.operation = .updateBeneficiary → v.beneficiary ≠ a → s.HeirRoom a)

/-- The call leaves the limits as they are, and where it files a vault without looking at
them there is room. -/
def FindsRoom (s : State) (_ : Env) : Call → Prop
  | .admin (.setOwnerVaultLimit _) | .admin (.setBeneficiaryVaultLimit _) => False
  | .vault (.cloneVault _ a b) | .vault (.cloneVaultWithOverrides _ a b _ _ _)
  | .vault (.createVaultFromInheritance _ a b _ _) => s.OwnerRoom a ∧ s.HeirRoom b
  | .ownership (.transferOwnership id _ a) | .ownership (.acceptOwnershipTransfer id a) =>
      s.OwnerMoves id a
  | .multisig (.executeMultisig id pid _) => s.ProposalMoves id pid
  | _ => True

section Capacity

variable {e : Env} {s t : State} {id n m k : Nat} {a : Address} {v : Vault} {c : Call}

namespace WithinLimits

theorem congr (h : WithinLimits m k s) (howned : t.owned = s.owned)
    (hinherited : t.inherited = s.inherited) : WithinLimits m k t :=
  ⟨howned ▸ h.owners, hinherited ▸ h.beneficiaries⟩

theorem put {key : DataKey} {x : key.Value} (h : WithinLimits m k s)
    (hkey : key.area ≠ .indexes) : WithinLimits m k (s.put key x) :=
  h.congr (State.owned_put fun _ he => hkey (he ▸ rfl))
    (State.inherited_put fun _ he => hkey (he ▸ rfl))

theorem erase {key : DataKey} (h : WithinLimits m k s) (hkey : key.area ≠ .indexes) :
    WithinLimits m k (s.erase key) :=
  h.congr (State.owned_erase fun _ he => hkey (he ▸ rfl))
    (State.inherited_erase fun _ he => hkey (he ▸ rfl))

end WithinLimits

/-! ## What the operations do to the limits -/

theorem wp_storeNewVault_within (h : WithinLimits m k s) (howner : Room m (s.owned v.owner))
    (hheir : Room k (s.inherited v.beneficiary)) :
    wp (storeNewVault n v) (fun _ t => WithinLimits m k t) e s := by
  simp only [storeNewVault, Tx.wp_bind, wp_saveVault, wp_listOwned, wp_listInherited, wp_storageSet]
  exact ⟨by simpa using h.owners.file howner, by simpa using h.beneficiaries.file hheir⟩

theorem wp_changeOwner_within (h : WithinLimits m k s)
    (hroom : v.owner ≠ a → Room m (s.owned a)) :
    wp (changeOwner id v a) (fun _ t => WithinLimits m k t) e s := by
  simp only [changeOwner, Tx.wp_bind, Tx.wp_onlyIf, wp_unlistOwned, wp_listOwned, wp_saveVault]
  refine ⟨fun hne => ⟨?_, ?_⟩, fun _ => h.put (by simp)⟩
  · simpa [Ne.symm hne] using h.owners.move hne (hroom hne)
  · simpa using h.beneficiaries

theorem wp_moveBeneficiaryIndex_within (h : WithinLimits m k s)
    (hroom : v.beneficiary ≠ a → Room k (s.inherited a)) :
    wp (moveBeneficiaryIndex id v.beneficiary a) (fun _ t => WithinLimits m k t) e
      (s.put (.vault id) (v.withBeneficiary a)) := by
  simp only [moveBeneficiaryIndex, Tx.wp_bind, Tx.wp_onlyIf, wp_unlistInherited, wp_listInherited]
  refine ⟨fun hne => ⟨?_, ?_⟩, fun _ => h.put (by simp)⟩
  · simpa using h.owners
  · simpa [Ne.symm hne] using h.beneficiaries.move hne (hroom hne)

/-- The check of the beneficiary limit. -/
theorem assertBeneficiaryCapacity_ok {u : Unit}
    (h : assertBeneficiaryCapacity a e s = .ok (u, t)) : s.HeirRoom a := by
  simp only [assertBeneficiaryCapacity, getBeneficiaryVaultLimit, loadBeneficiaryVaultIds,
    Tx.ok_bind, Tx.ok_pure, ok_storageGet, ok_require] at h
  obtain ⟨_, _, ⟨_, _, ⟨rfl, rfl⟩, rfl, rfl⟩, _, _, ⟨_, _, ⟨rfl, rfl⟩, rfl, rfl⟩, hroom, -⟩ := h
  exact hroom

theorem createVault_within (h : WithinLimits s.ownerLimit s.beneficiaryLimit s) {o b : Address}
    {i : Nat} {token : Option Address} :
    wp (createVault o b i token)
      (fun _ t => WithinLimits s.ownerLimit s.beneficiaryLimit t) e s := by
  simp only [createVault, resolveVaultToken, nextVaultId, Tx.wp_bind, Tx.wp_pure, Tx.wp_ifSomeElse,
    wp_requireAuth, wp_requireInitialized, wp_loadAdmin, wp_require, wp_assertIntervalInBounds,
    wp_storageGet, wp_loadOwnerVaultIds, wp_assertBeneficiaryCapacity, wp_timestamp,
    wp_assertTokenWhitelisted, wp_loadToken, wp_vaultCount, wp_u64, wp_storageSet]
  intro _ _ _ _ _ _ _ _ _ _ howner _ hcheck
  have hheir : s.HeirRoom b := assertBeneficiaryCapacity_ok hcheck
  have hstore : ∀ n token', wp (storeNewVault n (emptyVault o b i e.timestamp token' none))
      (fun _ t => WithinLimits s.ownerLimit s.beneficiaryLimit
        (((t.put (.vaultPasskeys n) []).put (.backupCodes n) []).put (.vaultDuplicate o b i) n))
      e s := fun n token' =>
    Tx.wp_mono (wp_storeNewVault_within h howner hheir) fun _ t ht =>
      ((ht.put (by simp)).put (by simp)).put (by simp)
  exact ⟨fun token' _ _ _ _ => hstore _ token', fun _ token' _ _ => hstore _ token'⟩

theorem createVaultFromInheritance_within (h : WithinLimits m k s) {p i : Nat}
    {caller b : Address} {token : Option Address} (howner : Room m (s.owned caller))
    (hheir : Room k (s.inherited b)) :
    wp (createVaultFromInheritance p caller b i token) (fun _ t => WithinLimits m k t) e s := by
  simp [createVaultFromInheritance, resolveVaultToken, nextVaultId]
  intros
  refine ⟨fun _ _ _ _ _ => ?_, fun _ _ _ _ => ?_⟩ <;>
    exact wp_storeNewVault_within h howner hheir

theorem cloneVault_within (h : WithinLimits m k s) {source : Nat} {o b : Address}
    (howner : Room m (s.owned o)) (hheir : Room k (s.inherited b)) :
    wp (cloneVault source o b) (fun _ t => WithinLimits m k t) e s := by
  simp [cloneVault, loadCloneSource, nextVaultId]
  intros
  exact wp_storeNewVault_within h howner hheir

theorem cloneVaultWithOverrides_within (h : WithinLimits m k s) {source : Nat} {o b : Address}
    {i : Option Nat} {bs : Option (List BeneficiaryEntry)} {x : Option String}
    (howner : Room m (s.owned o)) (hheir : Room k (s.inherited b)) :
    wp (cloneVaultWithOverrides source o b i bs x) (fun _ t => WithinLimits m k t) e s := by
  simp [cloneVaultWithOverrides, loadCloneSource, nextVaultId]
  intros
  refine wp_resolveBeneficiariesOverride fun _ _ => ?_
  intros
  exact wp_storeNewVault_within h howner hheir

theorem cancelVault_within (h : WithinLimits m k s) :
    wp (cancelVault id a) (fun _ t => WithinLimits m k t) e s := by
  simp only [cancelVault, Tx.wp_bind, wp_loadPaused, wp_require, wp_requireAuth, wp_loadVault,
    wp_storageGet, Tx.wp_onlyIf, wp_transfer, wp_saveVault, wp_unlistOwned, wp_unlistInherited,
    wp_storageRemove, wp_recordStateTransition]
  intro _ _ v _ _ _ _ _
  refine ⟨fun _ _ => ?_, fun _ => ?_⟩ <;>
    exact ⟨by simpa using h.owners.remove, by simpa using h.beneficiaries.remove⟩

theorem drainMergeSource_within (h : WithinLimits m k s) {balance : Int} :
    wp (drainMergeSource balance id) (fun _ t => WithinLimits m k t) e s := by
  simp only [drainMergeSource, Tx.wp_bind, wp_loadVault, wp_checkedAdd, wp_saveVault,
    wp_unlistOwned, wp_unlistInherited, Tx.wp_pure]
  intro v _ _
  exact ⟨by simpa using h.owners.remove, by simpa using h.beneficiaries.remove⟩

theorem mergeVaults_within (h : WithinLimits m k s) {target : Nat} {sources : List Nat} :
    wp (mergeVaults target sources a) (fun _ t => WithinLimits m k t) e s := by
  simp only [mergeVaults, Tx.wp_bind, wp_assertNotPaused, wp_loadLockedByOwner]
  intro _ _ v _ _ _
  refine Tx.wp_mono validateMergeSources_spec ?_
  rintro _ u ⟨rfl, -⟩
  simp only [wp_loadVault]
  intro v' _
  refine Tx.wp_mono (Tx.wp_foldEach (I := fun _ t => WithinLimits m k t)
    (fun i _ balance t hI => drainMergeSource_within hI) h) ?_
  intro balance t hI
  exact wp_saveVault.mpr (hI.put (by simp))

theorem transferOwnership_within (h : WithinLimits m k s) {caller : Address}
    (hroom : ∀ v, s.vault id = some v → v.owner ≠ a → Room m (s.owned a)) :
    wp (transferOwnership id caller a) (fun _ t => WithinLimits m k t) e s := by
  simp only [transferOwnership, Tx.wp_bind, wp_loadPaused, wp_require, wp_loadLockedByOwner]
  intro _ _ v hv _ _ _
  exact wp_changeOwner_within h (hroom v hv)

theorem acceptOwnershipTransfer_within (h : WithinLimits m k s)
    (hroom : ∀ v, s.vault id = some v → v.owner ≠ a → Room m (s.owned a)) :
    wp (acceptOwnershipTransfer id a) (fun _ t => WithinLimits m k t) e s := by
  simp only [acceptOwnershipTransfer, Tx.wp_bind, wp_loadPaused, wp_require, wp_requireAuth,
    wp_storageGet, Tx.wp_fromSome, wp_timestamp, wp_loadVault, wp_storageRemove]
  intro _ _ _ _ _ _ _ v hv _
  exact Tx.wp_mono (wp_changeOwner_within h (hroom v hv)) fun _ t ht => ht.erase (by simp)

theorem applyBeneficiaryUpdate_within (h : WithinLimits m s.beneficiaryLimit s) :
    wp (applyBeneficiaryUpdate id a) (fun _ t => WithinLimits m s.beneficiaryLimit t) e s := by
  simp only [applyBeneficiaryUpdate, Tx.wp_bind, wp_requireAuth, wp_loadVault, wp_require,
    wp_storageGet, Tx.wp_fromSome, wp_timestamp, Tx.wp_onlyIf, wp_assertBeneficiaryCapacity,
    wp_saveVault, wp_storageRemove]
  intro _ v hv _ p hp _
  have hmove : (v.beneficiary ≠ p.newBeneficiary → s.HeirRoom p.newBeneficiary) →
      wp (moveBeneficiaryIndex id v.beneficiary p.newBeneficiary)
        (fun _ t => WithinLimits m s.beneficiaryLimit (t.erase (.pendingBeneficiaryUpdate id))) e
        (s.put (.vault id) (v.withBeneficiary p.newBeneficiary)) := fun hroom =>
    Tx.wp_mono (wp_moveBeneficiaryIndex_within h hroom) fun _ t ht => ht.erase (by simp)
  exact ⟨fun _ _ hok => hmove fun _ => assertBeneficiaryCapacity_ok hok,
    fun heq => hmove fun hne => absurd hne heq⟩

theorem performOperation_within {p : MultiSigProposal} (h : WithinLimits m k s)
    (hroom : ∀ a, p.addressPayload = some a →
      (p.operation = .transferOwnership → v.owner ≠ a → Room m (s.owned a)) ∧
      (p.operation = .updateBeneficiary → v.beneficiary ≠ a → Room k (s.inherited a))) :
    wp (performOperation id v p p.operation) (fun _ t => WithinLimits m k t) e s := by
  cases hop : p.operation with
  | withdraw =>
      simp only [performOperation, doWithdraw, Tx.wp_bind, wp_decodeI128, wp_require, wp_transfer,
        wp_i128, wp_saveVault]
      intro amount _ _ _ _ _
      exact ⟨by simpa using h.owners, by simpa using h.beneficiaries⟩
  | updateBeneficiary =>
      simp only [performOperation, Tx.wp_bind, Tx.wp_fromSome, wp_require, wp_saveVault]
      intro a ha _
      exact wp_moveBeneficiaryIndex_within h ((hroom a ha).2 hop)
  | cancelVault =>
      simp only [performOperation, payShare, Tx.wp_bind, Tx.wp_onlyIf, wp_transfer, wp_saveVault,
        wp_unlistOwned, wp_unlistInherited]
      refine ⟨fun _ _ => ?_, fun _ => ?_⟩ <;>
        exact ⟨by simpa using h.owners.remove, by simpa using h.beneficiaries.remove⟩
  | transferOwnership =>
      simp only [performOperation, Tx.wp_bind, Tx.wp_fromSome, wp_require]
      intro a ha _
      exact wp_changeOwner_within h ((hroom a ha).1 hop)
  | updateCheckInInterval =>
      simp only [performOperation, Tx.wp_bind, wp_decodeU64, wp_require, wp_assertIntervalInBounds,
        wp_timestamp, wp_saveVault]
      intros
      exact h.put (by simp)

theorem executeMultisig_within (h : WithinLimits m k s) {pid : Nat}
    (hroom : ∀ v p a, s.vault id = some v → s.get (.multiSigProposal id pid) = some p →
      p.addressPayload = some a →
        (p.operation = .transferOwnership → v.owner ≠ a → Room m (s.owned a)) ∧
        (p.operation = .updateBeneficiary → v.beneficiary ≠ a → Room k (s.inherited a))) :
    wp (executeMultisig id pid a) (fun _ t => WithinLimits m k t) e s := by
  simp only [executeMultisig, loadExecutable, Tx.wp_bind, wp_requireAuth, wp_loadVault, wp_require,
    wp_loadProposal, wp_timestamp, Tx.wp_pure, wp_storageSet]
  intro _ v hv _ p hp _ _
  have hmarked : WithinLimits m k
      (s.put (.multiSigProposal id pid) { p with status := .executed }) := h.put (by simp)
  refine Tx.wp_mono (performOperation_within hmarked fun a ha => ?_) fun _ t ht => ?_
  · simpa using hroom v p a hv hp ha
  · simp only [wp_removeFromOpenProposals]
    exact ⟨fun _ _ => ht.put (by simp), fun _ => ht⟩

/-! ## The limits along a run -/

/-- The calls that write an index. -/
theorem Call.indexes_writer (h : .indexes ∈ (c.footprint s).areas) : c.Creating ∨
    (∃ id a, c = .vault (.cancelVault id a)) ∨
    (∃ id ids a, c = .vault (.mergeVaults id ids a)) ∨
    (∃ o, c = .checkIn o) ∨
    (∃ id a, c = .heir (.applyBeneficiaryUpdate id a)) ∨
    (∃ id a b, c = .ownership (.transferOwnership id a b)) ∨
    (∃ id a, c = .ownership (.acceptOwnershipTransfer id a)) ∨
    ∃ id pid a, c = .multisig (.executeMultisig id pid a) := by
  cases c with
  | vault c =>
      cases c <;> first
        | exact .inl trivial
        | simp [Call.footprint, VaultCall.footprint] at h ⊢
  | checkIn c => exact .inr (.inr (.inr (.inl ⟨c, rfl⟩)))
  | heir c => cases c <;> simp [Call.footprint, HeirCall.footprint] at h ⊢
  | ownership c => cases c <;> simp [Call.footprint, OwnershipCall.footprint] at h ⊢
  | multisig c => cases c <;> simp [Call.footprint, MultisigCall.footprint] at h ⊢
  | _ => simpa [Call.areas] using Call.mem_areas h

/-- What files no vault changes no list. -/
theorem indexes_of_frame {f : Footprint} (hframe : Frame f s t) (h : .indexes ∉ f.areas) :
    t.owned = s.owned ∧ t.inherited = s.inherited := by
  refine ⟨funext fun b => ?_, funext fun b => ?_⟩
  · simp [State.owned, hframe.get_of_area (k := .ownerVaults b) (by simpa using h)]
  · simp [State.inherited, hframe.get_of_area (k := .beneficiaryVaults b) (by simpa using h)]

/-- A check-in files no vault. -/
theorem execCheckIn_indexes {o : CheckInCall} (hnum : s.Numbered)
    (hexec : execCheckIn o e s = .ok ((), t)) : t.owned = s.owned ∧ t.inherited = s.inherited := by
  by_cases harea : .indexes ∈ (o.footprint s).areas
  swap
  · exact indexes_of_frame (exec_frame (.checkIn o) hnum _ _ hexec) harea
  cases o with
  | checkIn => exact checkIn_indexes _ _ hexec
  | checkInWithGeo => exact checkIn_indexes _ _ hexec
  | checkInWithPow => exact checkInWithPow_indexes _ _ hexec
  | _ => simp [CheckInCall.footprint] at harea

/-- Only the setters change the limits. -/
theorem exec_limits (hnum : s.Numbered) (hguard : FindsRoom s e c)
    (hexec : exec c e s = .ok ((), t)) :
    t.ownerLimit = s.ownerLimit ∧ t.beneficiaryLimit = s.beneficiaryLimit := by
  have hkeys : t.get (.ownerVaultCount currentContractAddress) =
        s.get (.ownerVaultCount currentContractAddress) ∧
      t.get .beneficiaryVaultLimit = s.get .beneficiaryVaultLimit := by
    by_cases hadmin : ∃ o, c = .admin o
    swap
    · have hconfig : .config ∉ (c.footprint s).areas := fun h => hadmin (Call.config_writer h)
      have hframe := exec_frame c hnum _ _ hexec
      exact ⟨hframe.get_of_area (by simpa using hconfig), hframe.get_of_area (by simpa using hconfig)⟩
    obtain ⟨o, rfl⟩ := hadmin
    have hsame : wp (execAdmin o) (fun _ t => t.get (.ownerVaultCount currentContractAddress) =
          s.get (.ownerVaultCount currentContractAddress) ∧
        t.get .beneficiaryVaultLimit = s.get .beneficiaryVaultLimit) e s := by
      cases o with
      | setOwnerVaultLimit | setBeneficiaryVaultLimit => exact hguard.elim
      | initializeContract => simp [execAdmin, initializeContract]
      | pause => simp [execAdmin, pause]
      | unpause => simp [execAdmin, unpause]
      | setMinCheckInInterval => simp [execAdmin, setMinCheckInInterval]
      | setMaxCheckInInterval => simp [execAdmin, setMaxCheckInInterval]
      | setMaxTtlSeconds => simp [execAdmin, setMaxTtlSeconds]
      | setTtlDecayRate => simp [execAdmin, setTtlDecayRate]
      | whitelistToken => simp [execAdmin, whitelistToken]
      | removeTokenWhitelist => simp [execAdmin, removeTokenWhitelist]
      | registerWrappedToken => simp [execAdmin, registerWrappedToken]
      | unregisterWrappedToken => simp [execAdmin, unregisterWrappedToken]
      | proposeProtocolConfig => simp [execAdmin, proposeProtocolConfig]
      | applyProtocolConfig => simp [execAdmin, applyProtocolConfig]
      | proposeNewAdmin => simp [execAdmin, proposeNewAdmin]
      | acceptAdmin => simp [execAdmin, acceptAdmin]
      | setMinCheckinCooldown => simp [execAdmin, setMinCheckinCooldown]
    exact hsame _ _ hexec
  exact ⟨by rw [State.ownerLimit, hkeys.1, State.ownerLimit],
    by rw [State.beneficiaryLimit, hkeys.2, State.beneficiaryLimit]⟩

/-- One call keeps within the limits. -/
theorem exec_within (h : WithinLimits s.ownerLimit s.beneficiaryLimit s) (hnum : s.Numbered)
    (hguard : FindsRoom s e c) (hexec : exec c e s = .ok ((), t)) :
    WithinLimits s.ownerLimit s.beneficiaryLimit t := by
  by_cases harea : .indexes ∈ (c.footprint s).areas
  swap
  · obtain ⟨howned, hinherited⟩ := indexes_of_frame (exec_frame c hnum _ _ hexec) harea
    exact h.congr howned hinherited
  obtain hc | ⟨id, a, rfl⟩ | ⟨id, ids, a, rfl⟩ | ⟨o, rfl⟩ | ⟨id, a, rfl⟩ | ⟨id, a, b, rfl⟩ |
    ⟨id, a, rfl⟩ | ⟨id, pid, a, rfl⟩ := Call.indexes_writer harea
  · cases c with
    | vault c =>
        cases c with
        | createVault o b i token =>
            obtain ⟨n, hn⟩ : ∃ n, createVault o b i token e s = .ok (n, t) := by
              simpa [exec, execVault] using hexec
            exact createVault_within h _ _ hn
        | createVaultFromInheritance p a b i token =>
            obtain ⟨n, hn⟩ : ∃ n, createVaultFromInheritance p a b i token e s = .ok (n, t) := by
              simpa [exec, execVault] using hexec
            exact createVaultFromInheritance_within h hguard.1 hguard.2 _ _ hn
        | cloneVault source o b =>
            obtain ⟨n, hn⟩ : ∃ n, cloneVault source o b e s = .ok (n, t) := by
              simpa [exec, execVault] using hexec
            exact cloneVault_within h hguard.1 hguard.2 _ _ hn
        | cloneVaultWithOverrides source o b i bs m =>
            obtain ⟨n, hn⟩ : ∃ n, cloneVaultWithOverrides source o b i bs m e s = .ok (n, t) := by
              simpa [exec, execVault] using hexec
            exact cloneVaultWithOverrides_within h hguard.1 hguard.2 _ _ hn
        | _ => exact hc.elim
    | _ => exact hc.elim
  · exact cancelVault_within h _ _ hexec
  · exact mergeVaults_within h _ _ hexec
  · obtain ⟨howned, hinherited⟩ := execCheckIn_indexes hnum hexec
    exact h.congr howned hinherited
  · exact applyBeneficiaryUpdate_within h _ _ hexec
  · exact transferOwnership_within h hguard _ _ hexec
  · exact acceptOwnershipTransfer_within h hguard _ _ hexec
  · exact executeMultisig_within h hguard _ _ hexec

end Capacity

/-- From a reachable state that meets the limits, they hold along every run that leaves them
as they are and in which there is room wherever a vault is filed without a check. -/
theorem capacity_kept {w₀ w : World} {ks : List Event} {m k : Nat} (h₀ : Reachable w₀)
    (hm : w₀.state.ownerLimit = m) (hk : w₀.state.beneficiaryLimit = k)
    (hstart : WithinLimits m k w₀.state)
    (hrun : Run (Guarded Step (OnCalls FindsRoom)) w₀ ks w) :
    (0 < m → ∀ a, (w.state.owned a).length ≤ m) ∧
      (0 < k → ∀ a, (w.state.inherited a).length ≤ k) := by
  have hinv : w.state.Numbered ∧ w.state.ownerLimit = m ∧ w.state.beneficiaryLimit = k ∧
      WithinLimits m k w.state := by
    refine hrun.invariant (I := fun w => w.state.Numbered ∧ w.state.ownerLimit = m ∧
      w.state.beneficiaryLimit = k ∧ WithinLimits m k w.state) ⟨h₀.numbered, hm, hk, hstart⟩ ?_
    rintro w event w' ⟨hnum, hm, hk, hwithin⟩ ⟨hstep, hguard⟩
    refine ⟨hstep.numbered hnum, ?_⟩
    cases hstep with
    | call _ hexec =>
        obtain ⟨hm', hk'⟩ := exec_limits hnum hguard hexec
        subst hm hk
        exact ⟨hm', hk', exec_within hwithin hnum hguard hexec⟩
    | tokens _ _ => exact ⟨hm, hk, hwithin.congr rfl rfl⟩
  obtain ⟨-, -, -, howners, hheirs⟩ := hinv
  exact ⟨fun hpos => howners.resolve_left hpos.ne', fun hpos => hheirs.resolve_left hpos.ne'⟩

/-- The initialised contract with a limit of `m` vaults for each owner. -/
def limited (m : Nat) : World where
  state := (initialised ⟨8⟩ ⟨9⟩).state.put (.ownerVaultCount currentContractAddress) m
  clock := 0

theorem reachable_limited (m : Nat) : Reachable (limited m) := by
  have hplay : play (initialised ⟨8⟩ ⟨9⟩) [(signedBy [⟨9⟩] 0, .admin (.setOwnerVaultLimit m))] =
      some (limited m) := rfl
  exact reachable_of_play hplay

theorem withinLimits_limited (m : Nat) : WithinLimits m 0 (limited m).state := by
  have hempty : ∀ a, (limited m).state.owned a = [] := fun _ => rfl
  exact ⟨.inr fun a => by simp [hempty a], .inl rfl⟩

/-- An owner who may have two vaults clones the only one he has. -/
theorem capacity_kept_clone : ∃ w : World, w.state.owned ⟨1⟩ = [1, 2] ∧
    ∀ a, (w.state.owned a).length ≤ 2 := by
  have hplay : (play (limited 2)
      [opensVault 100]).any
      (fun w => (play w [(signedBy [⟨1⟩] 1, .vault (.cloneVault 1 ⟨1⟩ ⟨2⟩))]).any
        fun w' => w.state.ownerLimit = 2 ∧ w.state.beneficiaryLimit = 0 ∧
          (w.state.owned ⟨1⟩).length = 1 ∧ w'.state.owned ⟨1⟩ = [1, 2]) = true := by
    decide +kernel
  obtain ⟨w, hw, hchecks⟩ := (Option.any_eq_true _ _).mp hplay
  obtain ⟨w', hw', hchecks⟩ := (Option.any_eq_true _ _).mp hchecks
  simp only [decide_eq_true_eq] at hchecks
  obtain ⟨hm, hk, hlength, howned⟩ := hchecks
  have hroom : FindsRoom w.state (signedBy [⟨1⟩] 1) (.vault (.cloneVault 1 ⟨1⟩ ⟨2⟩)) :=
    ⟨.inr (by rw [hlength, hm]; decide), .inl hk⟩
  have hrun : Run (Guarded Step (OnCalls FindsRoom)) (limited 2) _ w' :=
    .next (guarded_of_play (by simp [FindsRoom]) hw) (guarded_step_of_play hroom hw')
  exact ⟨w', howned, (capacity_kept (reachable_limited 2) rfl rfl (withinLimits_limited 2) hrun).1
    (by decide)⟩

/-- An owner who may have one vault clones it and has two. -/
theorem clone_exceeds_limit : ∃ w : World, Run Step (limited 1)
      (eventsOf [(signedBy [⟨1⟩] 0, .vault (.createVault ⟨1⟩ ⟨2⟩ 100 none)),
        (signedBy [⟨1⟩] 1, .vault (.cloneVault 1 ⟨1⟩ ⟨2⟩))]) w ∧
    Reachable w ∧ w.state.ownerLimit = 1 ∧ ¬ (w.state.owned ⟨1⟩).length ≤ 1 := by
  have hplay : (play (limited 1)
      [opensVault 100,
        (signedBy [⟨1⟩] 1, .vault (.cloneVault 1 ⟨1⟩ ⟨2⟩))]).any
      (fun w => w.state.ownerLimit = 1 ∧ (w.state.owned ⟨1⟩).length = 2) = true := by
    decide +kernel
  obtain ⟨w, hw, hchecks⟩ := (Option.any_eq_true _ _).mp hplay
  simp only [decide_eq_true_eq] at hchecks
  have hrun := run_of_play hw
  obtain ⟨w₀, ks, h₀, hks⟩ := reachable_limited 1
  exact ⟨w, hrun, ⟨w₀, _, h₀, hks.trans hrun⟩, hchecks.1, by rw [hchecks.2]; decide⟩

end Heirloom
