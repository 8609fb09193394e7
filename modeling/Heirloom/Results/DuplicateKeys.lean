import Heirloom.System

/-!
# The duplicate-vault key

`create_vault` files each new vault under its owner, beneficiary and interval, and
refuses a second one. The key stays exact (`duplicate_key_exact`) in every run in
which nothing happens behind its back: the three fields of a vault on file do not
change, such a vault is only closed by `cancel_vault` or by a release that pays
everything out, and no vault is closed whose fields are on file for another one.
None of this is checked; after one change of an interval the key is wrong
(`interval_leaves_stale_key`).
-/

namespace Heirloom

open Transaction Runs

/-! ## What the key should say -/

/-- A locked vault with the given owner, beneficiary and interval, the three fields that make up the
key. -/
structure Vault.FiledAs (v : Vault) (owner beneficiary : Address) (interval : Nat) : Prop where
  locked : v.status = .locked
  owner : v.owner = owner
  beneficiary : v.beneficiary = beneficiary
  interval : v.checkInInterval = interval

/-- The vault on file under the fields of `v`. -/
def State.filed (s : State) (v : Vault) : Option Nat :=
  s.get (.vaultDuplicate v.owner v.beneficiary v.checkInInterval)

/-- Vault `id` is on file under some key, which need not be the one of its present fields. -/
def State.OnFile (s : State) (id : Nat) : Prop :=
  ∃ owner beneficiary interval, s.get (.vaultDuplicate owner beneficiary interval) = some id

/-- The number of vaults made in a history. -/
def creations : List Event → Nat
  | [] => 0
  | .call _ (.vault (.createVault ..)) :: ks
  | .call _ (.vault (.createVaultFromInheritance ..)) :: ks
  | .call _ (.vault (.cloneVault ..)) :: ks
  | .call _ (.vault (.cloneVaultWithOverrides ..)) :: ks => creations ks + 1
  | _ :: ks => creations ks

/-- The vaults made by `create_vault` in a history. -/
def madeByCreate : List Event → List Nat
  | [] => []
  | .call _ (.vault (.createVault ..)) :: ks => (creations ks + 1) :: madeByCreate ks
  | _ :: ks => madeByCreate ks

/-- The checks of `create_vault` that come before the one for a duplicate, so that the file alone
decides about the call. -/
structure CreateAdmitted (e : Env) (s : State) (owner beneficiary : Address) (interval : Nat) :
    Prop where
  authorized : e.authorized owner = true
  notAdmin : ∃ admin, s.get .admin = some admin ∧ owner ≠ admin
  nonzero : interval ≠ 0
  bounds : assertIntervalInBounds interval e s = .ok ((), s)
  apart : owner ≠ beneficiary

/-! ## What a run has to leave alone -/

/-- A vault that is closed has no other vault on file under its fields, so that closing it takes no
entry but its own off the file. -/
def State.ClosesOwn (s : State) (id : Nat) : Prop :=
  ∀ v, s.vault id = some v → ∀ n, s.filed v = some n → n = id

/-- The call leaves the fields of every vault on file alone, closes such a vault only in
a way that takes it off the file, and closes no vault that would take another one off. -/
def FilesKept (s : State) (e : Env) : Call → Prop
  | .ownership (.transferOwnership id _ _) | .ownership (.acceptOwnershipTransfer id _)
  | .heir (.applyBeneficiaryUpdate id _) | .release (.revealBeneficiary id _ _) => ¬ s.OnFile id
  | .checkIn (.updateCheckInInterval id interval) =>
      s.OnFile id → ∀ v, s.vault id = some v → v.checkInInterval = interval
  | .multisig (.executeMultisig id proposalId _) =>
      s.OnFile id → ∀ p, s.get (.multiSigProposal id proposalId) = some p →
        p.operation = .withdraw
  | .vault (.mergeVaults _ sources _) => ∀ id ∈ sources, ¬ s.OnFile id
  | .vault (.cancelVault id _) => s.ClosesOwn id
  | .release (.triggerRelease id) | .release (.triggerReleaseManual id)
  | .release (.panicRelease id _) => (s.OnFile id → ¬ s.Unpaid e id) ∧
      ∀ v, s.vault id = some v → v.releaseAmount = v.balance → ¬ s.Unpaid e id → s.ClosesOwn id
  | _ => True

section Duplicates

variable {e : Env} {s t : State} {id : Nat} {v : Vault} {mode : ReleaseTrigger} {c : Call}

/-! ## What the calls do to the file -/

/-- After the check for a duplicate nothing can report one. -/
theorem avoids_createVault_rest {o b : Address} {i : Nat} {token : Option Address} :
    Tx.Avoids (.error .duplicateVault) (do
      let limit : Nat := (← storageGet (.ownerVaultCount currentContractAddress)).getD 0
      let currentCount := (← loadOwnerVaultIds o).length
      require (limit = 0 ∨ currentCount < limit) .vaultCapacityExceeded
      assertBeneficiaryCapacity b
      let vaultToken ← resolveVaultToken token
      let vaultId ← nextVaultId
      let now ← timestamp
      storeNewVault vaultId (emptyVault o b i now vaultToken none)
      storageSet (.vaultPasskeys vaultId) []
      storageSet (.backupCodes vaultId) []
      storageSet (.vaultDuplicate o b i) vaultId
      return vaultId) := by
  intro e s
  simp [loadOwnerVaultIds, assertBeneficiaryCapacity, getBeneficiaryVaultLimit,
    loadBeneficiaryVaultIds, resolveVaultToken, assertTokenWhitelisted, isTokenWhitelisted,
    getWrappedToken, loadToken, nextVaultId, vaultCount, storeNewVault, saveVault, addOwnerVaultId,
    addBeneficiaryVaultId]

theorem bind_require_duplicate {β : Type} {p : Prop} [Decidable p] {err : ContractError}
    {f : Unit → Contract β} (herr : err ≠ .duplicateVault) :
    (require p err >>= f) e s = .error (.error .duplicateVault) ↔
      p ∧ f () e s = .error (.error .duplicateVault) := by
  by_cases hp : p
  · rw [Tx.bind_of_ok (ok_require.mpr ⟨hp, rfl⟩)]
    exact ⟨fun h => ⟨hp, h⟩, fun h => h.2⟩
  · rw [Tx.bind_of_error (err_require.mpr ⟨hp, rfl⟩)]
    simp [hp, herr]

/-- `create_vault` refuses a duplicate exactly if the key is there. -/
theorem createVault_duplicate_iff {o b : Address} {i : Nat} {token : Option Address} :
    createVault o b i token e s = .error (.error .duplicateVault) ↔
      CreateAdmitted e s o b i ∧ (s.get (.vaultDuplicate o b i)).isSome = true := by
  have hauth : ∀ {f : Unit → Contract Nat}, (requireAuth o >>= f) e s =
      .error (.error .duplicateVault) ↔ e.authorized o = true ∧
        f () e s = .error (.error .duplicateVault) := by
    intro f
    simp [Unique.exists_iff]
  have hadmin : ∀ {f : Address → Contract Nat}, (loadAdmin >>= f) e s =
      .error (.error .duplicateVault) ↔ ∃ admin, s.get .admin = some admin ∧
        f admin e s = .error (.error .duplicateVault) := by
    intro f
    simp [loadAdmin]
  have hinit : ∀ {f : Unit → Contract Nat}, (requireInitialized >>= f) e s =
      .error (.error .duplicateVault) ↔ (s.get .admin).isSome = true ∧
        f () e s = .error (.error .duplicateVault) := by
    intro f
    simp [requireInitialized, Unique.exists_iff]
  have hbounds : ∀ {f : Unit → Contract Nat}, (assertIntervalInBounds i >>= f) e s =
      .error (.error .duplicateVault) ↔ assertIntervalInBounds i e s = .ok ((), s) ∧
        f () e s = .error (.error .duplicateVault) := by
    intro f
    have hread : wp (assertIntervalInBounds i) (fun _ t => t = s) e s :=
      wp_assertIntervalInBounds.mpr fun _ _ => rfl
    have hsafe : assertIntervalInBounds i e s ≠ .error (.error .duplicateVault) := by
      simp [assertIntervalInBounds]
    rw [Tx.err_bind]
    constructor
    · rintro (h | ⟨_, t, hok, h⟩)
      · exact (hsafe h).elim
      · obtain rfl := hread _ _ hok
        exact ⟨hok, h⟩
    · rintro ⟨hok, h⟩
      exact .inr ⟨(), s, hok, h⟩
  have hlast : ∀ {f : Unit → Contract Nat}, f () e s ≠ .error (.error .duplicateVault) →
      ((storageGet (.vaultDuplicate o b i) >>= fun duplicate : Option Nat =>
        require (duplicate.isSome = false) .duplicateVault >>= f) e s =
          .error (.error .duplicateVault) ↔ (s.get (.vaultDuplicate o b i)).isSome = true) := by
    intro f hf
    rw [Tx.bind_of_ok (ok_storageGet.mpr ⟨rfl, rfl⟩)]
    simp [Unique.exists_iff, hf]
    exact Option.isSome_iff_ne_none.symm
  have hchecks : createVault o b i token e s = .error (.error .duplicateVault) ↔
      e.authorized o = true ∧ (s.get .admin).isSome = true ∧ ∃ admin, s.get .admin = some admin ∧
        o ≠ admin ∧ i ≠ 0 ∧ assertIntervalInBounds i e s = .ok ((), s) ∧ o ≠ b ∧
          (s.get (.vaultDuplicate o b i)).isSome = true := by
    unfold createVault
    rw [hauth, hinit, hadmin]
    refine and_congr_right fun _ => and_congr_right fun _ => exists_congr fun admin =>
      and_congr_right fun _ => ?_
    rw [bind_require_duplicate (by decide), bind_require_duplicate (by decide), hbounds,
      bind_require_duplicate (by decide), hlast (avoids_createVault_rest e s)]
  rw [hchecks]
  constructor
  · rintro ⟨hsigned, -, admin, hadmin, hne, hzero, hin, hapart, hkey⟩
    exact ⟨⟨hsigned, ⟨admin, hadmin, hne⟩, hzero, hin, hapart⟩, hkey⟩
  · rintro ⟨⟨hsigned, ⟨admin, hadmin, hne⟩, hzero, hin, hapart⟩, hkey⟩
    exact ⟨hsigned, by simp [hadmin], admin, hadmin, hne, hzero, hin, hapart, hkey⟩

/-- The file of duplicate keys is the same in both states, entry by entry. -/
def SameFile (s t : State) : Prop :=
  ∀ o b i, t.get (.vaultDuplicate o b i) = s.get (.vaultDuplicate o b i)

/-- The file of `t` is that of `s` without the entry for the fields of `v`. -/
def TakenOff (v : Vault) (s t : State) : Prop :=
  ∀ o b i, t.get (.vaultDuplicate o b i) =
    if o = v.owner ∧ b = v.beneficiary ∧ i = v.checkInInterval then none
    else s.get (.vaultDuplicate o b i)

theorem get_put_file {o b o' b' : Address} {i i' n : Nat} :
    (s.put (.vaultDuplicate o b i) n).get (.vaultDuplicate o' b' i') =
      if o' = o ∧ b' = b ∧ i' = i then some n else s.get (.vaultDuplicate o' b' i') := by
  split
  · next h =>
      obtain ⟨rfl, rfl, rfl⟩ := h
      exact State.get_put_self
  · next h => exact State.get_put_of_ne fun he => h (by simpa using he)

theorem get_erase_file {o b o' b' : Address} {i i' : Nat} :
    (s.erase (.vaultDuplicate o b i)).get (.vaultDuplicate o' b' i') =
      if o' = o ∧ b' = b ∧ i' = i then none else s.get (.vaultDuplicate o' b' i') := by
  split
  · next h =>
      obtain ⟨rfl, rfl, rfl⟩ := h
      exact State.get_erase_self
  · next h => exact State.get_erase_of_ne fun he => h (by simpa using he)

theorem createVault_file {o b : Address} {i : Nat} {token : Option Address} :
    wp (createVault o b i token) (fun _ t => s.get (.vaultDuplicate o b i) = none ∧
      (∃ v, t.vault (s.count + 1) = some v ∧ v.FiledAs o b i) ∧
      ∀ o' b' i', t.get (.vaultDuplicate o' b' i') =
        if o' = o ∧ b' = b ∧ i' = i then some (s.count + 1)
        else s.get (.vaultDuplicate o' b' i')) e s := by
  have hfiled : ∀ {now : Nat} {token : Address}, (emptyVault o b i now token none).FiledAs o b i :=
    ⟨rfl, rfl, rfl, rfl⟩
  simp [createVault, resolveVaultToken, nextVaultId, storeNewVault, addOwnerVaultId,
    addBeneficiaryVaultId, hfiled, get_put_file]
  intro _ _ _ _ _ _ _ _ _ hnone _ _ _
  exact ⟨fun _ _ _ _ _ => hnone, fun _ _ _ _ => hnone⟩

theorem createVaultFromInheritance_file {p : Nat} {a b : Address} {i : Nat}
    {token : Option Address} :
    wp (createVaultFromInheritance p a b i token) (fun _ t => SameFile s t) e s := by
  simp [createVaultFromInheritance, resolveVaultToken, nextVaultId, storeNewVault, addOwnerVaultId,
    addBeneficiaryVaultId, SameFile]

theorem cloneVault_file {source : Nat} {o b : Address} :
    wp (cloneVault source o b) (fun _ t => SameFile s t) e s := by
  simp [cloneVault, loadCloneSource, nextVaultId, storeNewVault, addOwnerVaultId,
    addBeneficiaryVaultId, SameFile]

theorem cloneVaultWithOverrides_file {source : Nat} {o b : Address} {i : Option Nat}
    {bs : Option (List BeneficiaryEntry)} {m : Option String} :
    wp (cloneVaultWithOverrides source o b i bs m) (fun _ t => SameFile s t) e s := by
  simp [cloneVaultWithOverrides, loadCloneSource, nextVaultId, storeNewVault, addOwnerVaultId,
    addBeneficiaryVaultId]
  intros
  exact wp_resolveBeneficiariesOverride fun _ _ => by simp [SameFile]

theorem cancelVault_file {caller : Address} :
    wp (cancelVault id caller) (fun _ t => ∃ v, s.vault id = some v ∧
      t.vault id = some ((v.withBalance 0).withStatus .cancelled) ∧ TakenOff v s t) e s := by
  simp [cancelVault]
  intro _ _ v hv _ _ _ _
  refine ⟨fun _ _ => ⟨v, hv, rfl, fun o b i => ?_⟩, fun _ => ⟨v, hv, rfl, fun o b i => ?_⟩⟩ <;>
    simp [get_erase_file]

/-- What a release does to the file. -/
inductive ReleaseFiles (e : Env) (id : Nat) (v : Vault) (s t : State) : Prop
  | unpaid (hunpaid : s.Unpaid e id) (hfile : SameFile s t)
  | part (hfile : SameFile s t) (w : Vault) (hw : t.vault id = some w) (hlocked : w.status = .locked)
  | full (hfull : v.releaseAmount = v.balance) (hpaid : ¬ s.Unpaid e id) (hfile : TakenOff v s t)
      (w : Vault) (hw : t.vault id = some w) (hreleased : w.status = .released)

theorem releaseToHeirs_file (hv : s.vault id = some v) (hlocked : v.status = .locked)
    (hlapsed : ¬ s.acceptanceLapsed id e.timestamp) :
    wp (releaseToHeirs id v mode) (fun _ t => ReleaseFiles e id v s t) e s := by
  simp only [releaseToHeirs, releaseFunds, markReleaseAttempted, Tx.wp_bind, wp_timestamp,
    wp_applyRotation, wp_hasVesting, wp_storageSet, Tx.wp_ite, wp_saveVault,
    wp_recordStateTransition, wp_i128]
  refine fun vesting hvesting => ⟨fun hvests => ?_, fun hpaid _ _ => ?_⟩
  · refine .unpaid (.inr ⟨v, hv, (hasVesting_ok hvesting).mp hvests⟩) fun o b i => ?_
    simp
  · have hnot : ¬ s.Unpaid e id := by
      rintro (h | ⟨v', hv', h⟩)
      · exact hlapsed h
      · obtain rfl := Option.some.inj (hv.symm.trans hv')
        exact hpaid ((hasVesting_ok hvesting).mpr h)
    refine Tx.wp_mono payRelease_transfers ?_
    rintro _ _ ⟨log, rfl⟩
    simp only [Tx.wp_onlyIf, archiveReleased, Tx.wp_bind, wp_recordStateTransition, wp_storageSet,
      wp_storageRemove]
    refine fun _ => ⟨fun hzero => ?_, fun hrest => ?_⟩
    · refine .full (by simpa [Vault.releaseAmount] using (sub_eq_zero.mp hzero).symm) hnot
        (fun o b i => ?_) _ (by simp; rfl) (if_pos hzero)
      simp [get_erase_file, Vault.released]
    · exact .part (fun o b i => by simp) _ (by simp; rfl) ((if_neg hrest).trans hlocked)

theorem Cleared.sameFile (h : Cleared id s t) : SameFile s t := fun _ _ _ => h.get _ (by simp)

theorem triggerReleaseInternal_file :
    wp (triggerReleaseInternal id mode) (fun _ t => ∃ v, s.vault id = some v ∧
      v.status = .locked ∧ ReleaseFiles e id v s t) e s := by
  refine triggerReleaseInternal_rule (fun v t hfound hlapsed => ?_) fun v t hfound hnot => ?_
  all_goals obtain ⟨hcleared, hvs, hvt, hlocked, -, -⟩ := hfound
  · have hunpaid : s.Unpaid e id := hcleared.unpaid_iff.mp (.inl hlapsed)
    have hfile := hcleared.sameFile
    simp [refundOwner]
    exact fun _ => ⟨v, hvs, hlocked, .unpaid hunpaid fun o b i => by simpa using hfile o b i⟩
  · refine Tx.wp_mono (releaseToHeirs_file hvt hlocked hnot) fun _ u hu => ⟨v, hvs, hlocked, ?_⟩
    have hfile := hcleared.sameFile
    cases hu with
    | unpaid hunpaid hsame =>
        exact .unpaid (hcleared.unpaid_iff.mp hunpaid) fun o b i => (hsame o b i).trans (hfile o b i)
    | part hsame w hw hw' => exact .part (fun o b i => (hsame o b i).trans (hfile o b i)) w hw hw'
    | full hfull hpaid hoff w hw hw' =>
        refine .full hfull (fun h => hpaid (hcleared.unpaid_iff.mpr h)) (fun o b i => ?_) w hw hw'
        rw [hoff o b i, hfile o b i]

/-! ## The invariant -/

/-- The file lists exactly the locked vaults that `create_vault` has made, each under its present
owner, beneficiary and interval. -/
structure FileExact (ks : List Event) (s : State) : Prop where
  count : s.count = creations ks
  bound : ∀ n ∈ madeByCreate ks, n ≤ s.count
  made : ∀ o b i n, s.get (.vaultDuplicate o b i) = some n → n ∈ madeByCreate ks
  sound : ∀ o b i n, s.get (.vaultDuplicate o b i) = some n →
    ∃ v, s.vault n = some v ∧ v.FiledAs o b i
  complete : ∀ n ∈ madeByCreate ks, ∀ v, s.vault n = some v → v.status = .locked →
    s.filed v = some n

/-- The fields under which a vault is filed are the same, and so is its status. Everything else
about it may change. -/
structure Vault.SameFields (v w : Vault) : Prop where
  owner : w.owner = v.owner
  beneficiary : w.beneficiary = v.beneficiary
  interval : w.checkInInterval = v.checkInInterval
  status : w.status = v.status

theorem Vault.FiledAs.same {w : Vault} {o b : Address} {i : Nat} (h : v.FiledAs o b i)
    (hw : v.SameFields w) : w.FiledAs o b i :=
  ⟨hw.status.trans h.locked, hw.owner.trans h.owner, hw.beneficiary.trans h.beneficiary,
    hw.interval.trans h.interval⟩

variable {ks : List Event} {k : Event}

/-- Nothing on file has changed, and no vault has been locked again. -/
theorem FileExact.of_kept {ks' : List Event} (h : FileExact ks s) (hcount : t.count = creations ks')
    (hmono : s.count ≤ t.count) (hmade : madeByCreate ks' = madeByCreate ks) (hfile : SameFile s t)
    (hfields : ∀ n v, s.OnFile n → s.vault n = some v → ∃ w, t.vault n = some w ∧ v.SameFields w)
    (hlocked : ∀ n w, n ≤ s.count → t.vault n = some w → w.status = .locked →
      ∃ v, s.vault n = some v ∧ v.status = .locked) : FileExact ks' t where
  count := hcount
  bound := fun n hn => (h.bound n (hmade ▸ hn)).trans hmono
  made := fun o b i n hn => hmade ▸ h.made o b i n ((hfile o b i) ▸ hn)
  sound := by
    intro o b i n hn
    rw [hfile] at hn
    obtain ⟨v, hv, hfiled⟩ := h.sound o b i n hn
    obtain ⟨w, hw, hsame⟩ := hfields n v ⟨o, b, i, hn⟩ hv
    exact ⟨w, hw, hfiled.same hsame⟩
  complete := by
    intro n hn w hw hwl
    rw [hmade] at hn
    obtain ⟨v, hv, hvl⟩ := hlocked n w (h.bound n hn) hw hwl
    have hfiled := h.complete n hn v hv hvl
    obtain ⟨w', hw', hsame⟩ := hfields n v ⟨_, _, _, hfiled⟩ hv
    obtain rfl := Option.some.inj (hw.symm.trans hw')
    rw [State.filed, hsame.owner, hsame.beneficiary, hsame.interval, hfile]
    exact hfiled

/-- A vault was closed and taken off the file. -/
theorem FileExact.of_closed {ks' : List Event} {w : Vault} (h : FileExact ks s)
    (hcount : t.count = creations ks') (hsame : t.count = s.count)
    (hmade : madeByCreate ks' = madeByCreate ks) (hv : s.vault id = some v) (hoff : TakenOff v s t)
    (hown : s.ClosesOwn id) (hw : t.vault id = some w) (hclosed : w.status ≠ .locked)
    (hothers : ∀ n, n ≠ id → t.vault n = s.vault n) : FileExact ks' t where
  count := hcount
  bound := fun n hn => hsame ▸ h.bound n (hmade ▸ hn)
  made := by
    intro o b i n hn
    rw [hoff] at hn
    split at hn
    · cases hn
    · exact hmade ▸ h.made o b i n hn
  sound := by
    intro o b i n hn
    rw [hoff] at hn
    split at hn
    · cases hn
    · next hkey =>
        obtain ⟨v', hv', hfiled⟩ := h.sound o b i n hn
        -- the vault that was closed is on file under no other key
        have hne : n ≠ id := by
          rintro rfl
          obtain rfl := Option.some.inj (hv.symm.trans hv')
          exact hkey ⟨hfiled.owner.symm, hfiled.beneficiary.symm, hfiled.interval.symm⟩
        exact ⟨v', (hothers n hne).trans hv', hfiled⟩
  complete := by
    intro n hn x hx hlocked
    have hne : n ≠ id := by
      rintro rfl
      obtain rfl := Option.some.inj (hw.symm.trans hx)
      exact hclosed hlocked
    rw [hothers n hne] at hx
    have hfiled := h.complete n (hmade ▸ hn) x hx hlocked
    rw [State.filed, hoff, if_neg]
    · exact hfiled
    · rintro ⟨ho, hb, hi⟩
      refine hne (hown v hv n ?_)
      rw [State.filed, ← ho, ← hb, ← hi]
      exact hfiled

theorem creations_call (hc : ¬ c.Creating) : creations (.call e c :: ks) = creations ks := by
  cases c with
  | vault c => cases c <;> first | exact absurd trivial hc | rfl
  | _ => rfl

theorem madeByCreate_call (hc : ¬ c.Creating) :
    madeByCreate (.call e c :: ks) = madeByCreate ks := by
  cases c with
  | vault c => cases c <;> first | exact absurd trivial hc | rfl
  | _ => rfl

/-- The calls that change a field under which a vault is filed, its status or the file. -/
def Call.Filing : Call → Prop
  | .ownership (.transferOwnership ..) | .ownership (.acceptOwnershipTransfer ..)
  | .heir (.applyBeneficiaryUpdate ..) | .release (.revealBeneficiary ..)
  | .checkIn (.updateCheckInInterval ..) | .multisig (.executeMultisig ..)
  | .vault (.mergeVaults ..) | .vault (.cancelVault ..) | .release (.triggerRelease _)
  | .release (.triggerReleaseManual _) | .release (.panicRelease ..) => True
  | _ => False

theorem Call.not_filing (hc : ¬ c.Creating) (hf : ¬ c.Filing) :
    (.owner ∉ (c.footprint s).parts ∧ .beneficiary ∉ (c.footprint s).parts ∧
      .interval ∉ (c.footprint s).parts ∧ .status ∉ (c.footprint s).parts) ∧
      .duplicates ∉ (c.footprint s).areas := by
  cases c with
  | vault c =>
      cases c <;> first | exact absurd trivial hc | exact absurd trivial hf |
        simp [Call.footprint, VaultCall.footprint]
  | checkIn c =>
      cases c <;> first | exact absurd trivial hf | simp [Call.footprint, CheckInCall.footprint]
  | heir c =>
      cases c <;> first | exact absurd trivial hf | simp [Call.footprint, HeirCall.footprint]
  | ownership c =>
      cases c <;> first | exact absurd trivial hf | simp [Call.footprint, OwnershipCall.footprint]
  | release c =>
      cases c <;> first | exact absurd trivial hf | simp [Call.footprint, ReleaseCall.footprint]
  | multisig c =>
      cases c <;> first | exact absurd trivial hf | simp [Call.footprint, MultisigCall.footprint]
  | _ =>
      refine ⟨⟨?_, ?_, ?_, ?_⟩, fun h => by simpa [Call.areas] using Call.mem_areas h⟩ <;>
        exact fun h => by simpa [Call.parts] using Call.mem_parts h

theorem Frame.sameFields {f : Footprint} {n : Nat} (h : Frame f s t) (hv : s.vault n = some v)
    (hparts : .owner ∉ f.parts ∧ .beneficiary ∉ f.parts ∧ .interval ∉ f.parts)
    (hstatus : ∀ w, t.vault n = some w → w.status = v.status) :
    ∃ w, t.vault n = some w ∧ v.SameFields w := by
  obtain ⟨w, hw, hagree⟩ := h.kept n v hv
  exact ⟨w, hw, hagree.owner.resolve_left hparts.1, hagree.beneficiary.resolve_left hparts.2.1,
    hagree.interval.resolve_left hparts.2.2, hstatus w hw⟩

/-- A call that creates nothing and leaves the file and what is on it alone. -/
theorem FileExact.of_call (h : FileExact ks s) (hc : ¬ c.Creating)
    (hframe : Frame (c.footprint s) s t) (hfile : SameFile s t)
    (hfields : ∀ n v, s.OnFile n → s.vault n = some v → ∃ w, t.vault n = some w ∧ v.SameFields w) :
    FileExact (.call e c :: ks) t := by
  obtain ⟨hcreation, hcount⟩ := Call.not_creation (s := s) hc
  have hsame : t.count = s.count := by
    simp [State.count, hframe.get_of_area (k := .vaultCount) (by simpa using hcount)]
  refine h.of_kept (hsame.trans (h.count.trans (creations_call hc).symm)) hsame.ge
    (madeByCreate_call hc) hfile hfields fun n w _ hw hlocked => ?_
  obtain ⟨v, hv, hagree⟩ := hframe.vault_before hcreation hw
  exact ⟨v, hv, hagree.status.elim (fun he => he ▸ hlocked) fun hn => absurd hlocked hn.2⟩

/-- The calls about one vault that is not on file. -/
theorem FileExact.of_other (h : FileExact ks s) (hc : ¬ c.Creating)
    (hframe : Frame (c.footprint s) s t) (hfile : SameFile s t)
    (hvaults : ∀ n ∈ (c.footprint s).vaults, ¬ s.OnFile n) : FileExact (.call e c :: ks) t := by
  refine h.of_call hc hframe hfile fun n v hn hv => ?_
  exact ⟨v, (hframe.vault_eq fun hmem => hvaults n hmem hn).trans hv, rfl, rfl, rfl, rfl⟩

/-- A release, in any of its modes. -/
theorem fileExact_release (h : FileExact ks s) (hc : ¬ c.Creating)
    (hfoot : c.footprint s = releaseFootprint id)
    (hguard : (s.OnFile id → ¬ s.Unpaid e id) ∧
      ∀ v, s.vault id = some v → v.releaseAmount = v.balance → ¬ s.Unpaid e id → s.ClosesOwn id)
    (hframe : Frame (c.footprint s) s t) (hexec : triggerReleaseInternal id mode e s = .ok ((), t)) :
    FileExact (.call e c :: ks) t := by
  obtain ⟨v, hv, hlocked, hfiles⟩ := triggerReleaseInternal_file _ _ hexec
  have hothers : ∀ n, n ≠ id → t.vault n = s.vault n := fun n hn =>
    hframe.vault_eq (by simp [hfoot, releaseFootprint, hn])
  cases hfiles with
  | unpaid hunpaid hsame =>
      refine h.of_other hc hframe hsame fun n hn hfile => ?_
      obtain rfl : n = id := by simpa [hfoot, releaseFootprint] using hn
      exact hguard.1 hfile hunpaid
  | part hsame w hw hwl =>
      refine h.of_call hc hframe hsame fun n x _ hx => ?_
      by_cases hn : n = id
      · subst hn
        obtain rfl := Option.some.inj (hv.symm.trans hx)
        refine hframe.sameFields hx (by simp [hfoot, releaseFootprint]) fun w' hw' => ?_
        obtain rfl := Option.some.inj (hw.symm.trans hw')
        rw [hwl, hlocked]
      · exact ⟨x, (hothers n hn).trans hx, rfl, rfl, rfl, rfl⟩
  | full hfull hpaid hoff w hw hreleased =>
      have hsame : t.count = s.count := by
        have hcount := (Call.not_creation (s := s) hc).2
        simp [State.count, hframe.get_of_area (k := .vaultCount) (by simpa using hcount)]
      exact h.of_closed (hsame.trans (h.count.trans (creations_call hc).symm)) hsame
        (madeByCreate_call hc) hv hoff (hguard.2 v hv hfull hpaid) hw (by simp [hreleased]) hothers

theorem fileExact_cancelVault {caller : Address} (h : FileExact ks s) (hown : s.ClosesOwn id)
    (hframe : Frame ((Call.vault (.cancelVault id caller)).footprint s) s t)
    (hexec : cancelVault id caller e s = .ok ((), t)) :
    FileExact (.call e (.vault (.cancelVault id caller)) :: ks) t := by
  obtain ⟨v, hv, hw, hoff⟩ := cancelVault_file _ _ hexec
  have hcount : t.count = s.count := by
    simp [State.count, hframe.get_of_area (k := .vaultCount)
      (by simp [Call.footprint, VaultCall.footprint])]
  exact h.of_closed (hcount.trans h.count) hcount rfl hv hoff hown hw (by simp)
    fun n hn => hframe.vault_eq (by simp [Call.footprint, VaultCall.footprint, hn])

/-- A merge changes the fields of no vault but its sources. -/
theorem mergeVaults_sameFields {target : Nat} {sources : List Nat} {caller : Address} :
    wp (mergeVaults target sources caller) (fun _ t => ∀ n v, n ∉ sources →
      s.vault n = some v → ∃ w, t.vault n = some w ∧ v.SameFields w) e s := by
  refine mergeVaults_rule (I := fun _ t => ∀ n, n ∉ sources → t.vault n = s.vault n)
    (fun _ _ _ _ => rfl) (fun _ i v t u hi _ hI htx n hn => ?_)
    fun target' balance t htarget _ _ _ _ hI n v hn hv => ?_
  · rw [htx.after n, if_neg (fun he : n = i => hn (he ▸ hi))]
    exact hI n hn
  · by_cases heq : n = target
    · subst heq
      obtain rfl := Option.some.inj (htarget.symm.trans hv)
      exact ⟨target'.withBalance balance, by simp, rfl, rfl, rfl, rfl⟩
    · exact ⟨v, by simpa [heq, hI n hn] using hv, rfl, rfl, rfl, rfl⟩

/-- A vault on file keeps its fields if it is given the interval it has. -/
theorem updateCheckInInterval_sameFields {i n : Nat}
    (hguard : s.OnFile id → ∀ v, s.vault id = some v → v.checkInInterval = i) (hn : s.OnFile n)
    (hv : s.vault n = some v)
    (hframe : Frame ((Call.checkIn (.updateCheckInInterval id i)).footprint s) s t)
    (hexec : updateCheckInInterval id i e s = .ok ((), t)) :
    ∃ w, t.vault n = some w ∧ v.SameFields w := by
  by_cases heq : n = id
  · subst heq
    have hupdate : wp (updateCheckInInterval n i) (fun _ t =>
        t.vault n = some ((v.withCheckInInterval i).withLastCheckIn e.timestamp)) e s := by
      simp [updateCheckInInterval, hv]
    exact ⟨_, hupdate _ _ hexec, rfl, rfl, (hguard hn v hv).symm, rfl⟩
  · have hkept : t.vault n = s.vault n :=
      hframe.vault_eq (by simp [Call.footprint, CheckInCall.footprint, heq])
    exact ⟨v, hkept.trans hv, rfl, rfl, rfl, rfl⟩

/-- A vault on file keeps its fields if the proposal is about a withdrawal. -/
theorem executeMultisig_sameFields {proposalId n : Nat} {caller : Address}
    (hguard : s.OnFile id → ∀ p, s.get (.multiSigProposal id proposalId) = some p →
      p.operation = .withdraw) (hn : s.OnFile n) (hv : s.vault n = some v)
    (hexec : executeMultisig id proposalId caller e s = .ok ((), t)) :
    ∃ w, t.vault n = some w ∧ v.SameFields w := by
  obtain ⟨_, q, hx⟩ := executeMultisig_spec _ _ hexec
  by_cases heq : n = id
  · subst heq
    have hframe := hx.frame
    rw [hguard hn q hx.proposal] at hframe
    refine hframe.sameFields hv (by simp [MultiSigOperation.parts]) fun w hw => ?_
    obtain ⟨w', hw', hagree⟩ := hframe.kept n v hv
    obtain rfl := Option.some.inj (hw.symm.trans hw')
    simpa [MultiSigOperation.parts] using hagree.status
  · have hkept : t.vault n = s.vault n := hx.frame.vault_eq (by simp [heq])
    exact ⟨v, hkept.trans hv, rfl, rfl, rfl, rfl⟩

/-- The calls that only have to leave vaults on file alone. -/
theorem fileExact_filing (h : FileExact ks s) (hf : c.Filing) (hguard : FilesKept s e c)
    (hframe : Frame (c.footprint s) s t) (hexec : exec c e s = .ok ((), t)) :
    FileExact (.call e c :: ks) t := by
  have hsame : .duplicates ∉ (c.footprint s).areas → SameFile s t := fun harea o b i =>
    hframe.get_of_area (by simpa using harea)
  cases c with
  | vault c =>
      cases c with
      | cancelVault id a => exact fileExact_cancelVault h hguard hframe hexec
      | mergeVaults target sources a =>
          refine h.of_call (fun hc => hc) hframe
            (hsame (by simp [Call.footprint, VaultCall.footprint])) fun n v hn hv => ?_
          exact mergeVaults_sameFields _ _ hexec n v (fun hmem => hguard n hmem hn) hv
      | _ => exact hf.elim
  | checkIn c =>
      cases c with
      | updateCheckInInterval id i =>
          exact h.of_call (fun hc => hc) hframe
            (hsame (by simp [Call.footprint, CheckInCall.footprint])) fun n v hn hv =>
              updateCheckInInterval_sameFields hguard hn hv hframe hexec
      | _ => exact hf.elim
  | heir c =>
      cases c with
      | applyBeneficiaryUpdate id a =>
          exact h.of_other (fun hc => hc) hframe (hsame (by simp [Call.footprint, HeirCall.footprint]))
            (by simpa [Call.footprint, HeirCall.footprint, FilesKept] using hguard)
      | _ => exact hf.elim
  | ownership c =>
      cases c with
      | transferOwnership id a b =>
          exact h.of_other (fun hc => hc) hframe
            (hsame (by simp [Call.footprint, OwnershipCall.footprint]))
            (by simpa [Call.footprint, OwnershipCall.footprint, FilesKept] using hguard)
      | acceptOwnershipTransfer id a =>
          exact h.of_other (fun hc => hc) hframe
            (hsame (by simp [Call.footprint, OwnershipCall.footprint]))
            (by simpa [Call.footprint, OwnershipCall.footprint, FilesKept] using hguard)
      | _ => exact hf.elim
  | release c =>
      cases c with
      | triggerRelease id => exact fileExact_release h (fun hc => hc) rfl hguard hframe hexec
      | triggerReleaseManual id => exact fileExact_release h (fun hc => hc) rfl hguard hframe hexec
      | panicRelease id a =>
          simp only [exec, execRelease, panicRelease, Tx.ok_bind, ok_requireAuth, ok_loadVault,
            ok_require] at hexec
          obtain ⟨_, _, ⟨_, rfl⟩, _, _, ⟨_, rfl⟩, _, _, ⟨_, rfl⟩, hexec⟩ := hexec
          exact fileExact_release h (fun hc => hc) rfl hguard hframe hexec
      | revealBeneficiary id p a =>
          exact h.of_other (fun hc => hc) hframe
            (hsame (by simp [Call.footprint, ReleaseCall.footprint]))
            (by simpa [Call.footprint, ReleaseCall.footprint, FilesKept] using hguard)
      | _ => exact hf.elim
  | multisig c =>
      cases c with
      | executeMultisig id p a =>
          exact h.of_call (fun hc => hc) hframe
            (hsame (by simp [Call.footprint, MultisigCall.footprint])) fun n v hn hv =>
              executeMultisig_sameFields hguard hn hv hexec
      | _ => exact hf.elim
  | _ => exact hf.elim

/-- A new vault leaves the vaults that are there alone. -/
theorem FileExact.of_copy (h : FileExact ks s) (hcreates : Creates v s t) (hfile : SameFile s t)
    (hnum : s.Numbered) {ks' : List Event} (hcount : creations ks' = creations ks + 1)
    (hmade : madeByCreate ks' = madeByCreate ks) : FileExact ks' t := by
  have hold : ∀ n ≤ s.count, t.vault n = s.vault n := fun n hn => by
    rw [hcreates.vault, if_neg (by omega)]
  refine h.of_kept (by rw [hcreates.count, h.count, hcount]) (by simp [hcreates.count]) hmade hfile
    (fun n x _ hx => ?_) fun n w hn hw hlocked => ⟨w, (hold n hn).symm.trans hw, hlocked⟩
  have hle : n ≤ s.count := by
    by_contra hlt
    simp [hnum n (by omega)] at hx
  exact ⟨x, (hold n hle).trans hx, rfl, rfl, rfl, rfl⟩

/-- `create_vault` files the vault it makes. -/
theorem fileExact_createVault {o b : Address} {i : Nat} {token : Option Address}
    (h : FileExact ks s)
    (hexec : exec (.vault (.createVault o b i token)) e s = .ok ((), t)) :
    FileExact (.call e (.vault (.createVault o b i token)) :: ks) t := by
  obtain ⟨n, hn⟩ : ∃ n, createVault o b i token e s = .ok (n, t) := by
    simpa [exec, execVault] using hexec
  obtain ⟨v, hcreates⟩ := createVault_spec _ _ hn
  obtain ⟨hfree, ⟨v', hv', hfiled⟩, hfile⟩ := createVault_file _ _ hn
  have hold : ∀ n ≤ s.count, t.vault n = s.vault n := fun n hn => by
    rw [hcreates.vault, if_neg (by omega)]
  refine ⟨by rw [hcreates.count, h.count]; rfl, ?_, ?_, ?_, ?_⟩
  · intro m hm
    rw [hcreates.count]
    obtain rfl | hm := List.mem_cons.mp hm
    · rw [h.count]
    · exact (h.bound m hm).trans (Nat.le_succ _)
  · intro o' b' i' m hm
    rw [hfile] at hm
    split at hm
    · obtain rfl := Option.some.inj hm
      rw [h.count]
      exact List.mem_cons_self
    · exact List.mem_cons_of_mem _ (h.made o' b' i' m hm)
  · intro o' b' i' m hm
    rw [hfile] at hm
    split at hm
    · next hkey =>
        obtain ⟨rfl, rfl, rfl⟩ := hkey
        obtain rfl := Option.some.inj hm
        exact ⟨v', hv', hfiled⟩
    · obtain ⟨x, hx, hxf⟩ := h.sound o' b' i' m hm
      exact ⟨x, (hold m (h.bound m (h.made o' b' i' m hm))).trans hx, hxf⟩
  · intro m hm x hx hlocked
    obtain rfl | hm := List.mem_cons.mp hm
    · rw [← h.count] at hx ⊢
      obtain rfl := Option.some.inj (hv'.symm.trans hx)
      rw [State.filed, hfile, if_pos ⟨hfiled.owner, hfiled.beneficiary, hfiled.interval⟩]
    · rw [hold m (h.bound m hm)] at hx
      have hxf := h.complete m hm x hx hlocked
      rw [State.filed, hfile, if_neg]
      · exact hxf
      · rintro ⟨rfl, rfl, rfl⟩
        simp [State.filed, hfree] at hxf

/-- One call keeps the file exact. -/
theorem fileExact_call (h : FileExact ks s) (hnum : s.Numbered) (hguard : FilesKept s e c)
    (hexec : exec c e s = .ok ((), t)) : FileExact (.call e c :: ks) t := by
  have hframe : Frame (c.footprint s) s t := exec_frame c hnum _ _ hexec
  by_cases hc : c.Creating
  swap
  · by_cases hf : c.Filing
    · exact fileExact_filing h hf hguard hframe hexec
    · obtain ⟨⟨howner, hbeneficiary, hinterval, hstatus⟩, harea⟩ := Call.not_filing (s := s) hc hf
      refine h.of_call hc hframe (fun o b i => hframe.get_of_area (by simpa using harea))
        fun n v _ hv => hframe.sameFields hv ⟨howner, hbeneficiary, hinterval⟩ fun w hw => ?_
      obtain ⟨w', hw', hagree⟩ := hframe.kept n v hv
      obtain rfl := Option.some.inj (hw.symm.trans hw')
      exact hagree.status.resolve_right fun hs => hstatus hs.1
  · obtain ⟨v, hcreates⟩ := exec_creates hc _ _ hexec
    cases c with
    | vault c =>
        cases c with
        | createVault o b i token => exact fileExact_createVault h hexec
        | createVaultFromInheritance p a b i token =>
            obtain ⟨n, hn⟩ : ∃ n, createVaultFromInheritance p a b i token e s = .ok (n, t) := by
              simpa [exec, execVault] using hexec
            exact h.of_copy hcreates (createVaultFromInheritance_file _ _ hn) hnum rfl rfl
        | cloneVault source o b =>
            obtain ⟨n, hn⟩ : ∃ n, cloneVault source o b e s = .ok (n, t) := by
              simpa [exec, execVault] using hexec
            exact h.of_copy hcreates (cloneVault_file _ _ hn) hnum rfl rfl
        | cloneVaultWithOverrides source o b i bs m =>
            obtain ⟨n, hn⟩ : ∃ n, cloneVaultWithOverrides source o b i bs m e s = .ok (n, t) := by
              simpa [exec, execVault] using hexec
            exact h.of_copy hcreates (cloneVaultWithOverrides_file _ _ hn) hnum rfl rfl
        | _ => exact hc.elim
    | _ => exact hc.elim

end Duplicates

/-- In every run in which nothing happens behind the back of the file, the key is there
for a locked vault with these fields, and `create_vault` refuses a duplicate exactly if
there is a locked vault with these fields that it has made itself. -/
theorem duplicate_key_exact {w₀ w : World} {ks : List Event} (h₀ : Genesis w₀)
    (hrun : Run (Guarded Step (OnCalls FilesKept)) w₀ ks w) :
    (∀ o b i n, w.state.get (.vaultDuplicate o b i) = some n →
      ∃ v, w.state.vault n = some v ∧ v.FiledAs o b i) ∧
    ∀ e o b i token, createVault o b i token e w.state = .error (.error .duplicateVault) ↔
      CreateAdmitted e w.state o b i ∧
        ∃ n ∈ madeByCreate ks, ∃ v, w.state.vault n = some v ∧ v.FiledAs o b i := by
  have hexact : FileExact ks w.state := by
    refine history_of_calls (I := fun ks w => FileExact ks w.state) h₀ hrun ?_
      (fun hnum hI hguard _ hexec => fileExact_call hI hnum hguard hexec)
      fun l hI => ⟨hI.1, hI.2, hI.3, hI.4, hI.5⟩
    have hnone : ∀ o b i, w₀.state.get (.vaultDuplicate o b i) = none := fun _ _ _ =>
      h₀.get (by simp)
    have hcount : w₀.state.get .vaultCount = none := h₀.get (by simp)
    exact ⟨by simp [State.count, hcount, creations], by simp [madeByCreate], by simp [hnone],
      by simp [hnone], by simp [madeByCreate]⟩
  refine ⟨hexact.sound, fun e o b i token => ?_⟩
  rw [createVault_duplicate_iff]
  refine and_congr_right fun _ => ⟨fun hkey => ?_, ?_⟩
  · obtain ⟨n, hn⟩ := Option.isSome_iff_exists.mp hkey
    obtain ⟨v, hv, hfiled⟩ := hexact.sound o b i n hn
    exact ⟨n, hexact.made o b i n hn, v, hv, hfiled⟩
  · rintro ⟨n, hn, v, hv, hfiled⟩
    have hkey := hexact.complete n hn v hv hfiled.locked
    rw [State.filed, hfiled.owner, hfiled.beneficiary, hfiled.interval] at hkey
    simp [hkey]

/-- A second vault with the same fields is refused. -/
theorem duplicate_key_exact_refused : ∃ w : World, Reachable w ∧
    createVault ⟨1⟩ ⟨2⟩ 100 none (signedBy [⟨1⟩] 5) w.state =
      .error (.error .duplicateVault) := by
  have hplay : (play (initialised ⟨8⟩ ⟨9⟩)
      [opensVault 100]).any
      (fun w => (w.state.vault 1).any (fun v => v.status = .locked ∧ v.owner = ⟨1⟩ ∧
          v.beneficiary = ⟨2⟩ ∧ v.checkInInterval = 100) ∧ w.state.get .admin = some ⟨9⟩ ∧
        w.state.get .minCheckInInterval = none ∧ w.state.get .maxCheckInInterval = none) = true := by
    decide +kernel
  obtain ⟨w, hw, hchecks⟩ := (Option.any_eq_true _ _).mp hplay
  simp only [decide_eq_true_eq] at hchecks
  obtain ⟨hvault, hadmin, hmin, hmax⟩ := hchecks
  obtain ⟨v, hv, hlocked, howner, hheir, hinterval⟩ : ∃ v, w.state.vault 1 = some v ∧
      v.status = .locked ∧ v.owner = ⟨1⟩ ∧ v.beneficiary = ⟨2⟩ ∧ v.checkInInterval = 100 := by
    simpa [Option.any_eq_true] using hvault
  have h₀ : Genesis (initialised ⟨8⟩ ⟨9⟩) := genesis_initialised (by decide) (by decide)
  have hrefused := (duplicate_key_exact h₀ (guarded_of_play (by simp [FilesKept]) hw)).2
    (signedBy [⟨1⟩] 5) ⟨1⟩ ⟨2⟩ 100 none
  refine ⟨w, reachable_of_play hw, hrefused.mpr ⟨⟨by decide, ⟨⟨9⟩, hadmin, by decide⟩, by decide, ?_,
    by decide⟩, 1, by simp [eventsOf, madeByCreate, creations], v, hv, hlocked, howner, hheir,
    hinterval⟩⟩
  simp [assertIntervalInBounds, hmin, hmax]

/-- The owner changes the interval of a vault, but the key stays as it was. -/
theorem interval_leaves_stale_key : ¬ ∀ (w : World) (o b : Address) (i n : Nat), Reachable w →
    w.state.get (.vaultDuplicate o b i) = some n →
      ∃ v, w.state.vault n = some v ∧ v.FiledAs o b i := by
  have hplay : (play (initialised ⟨8⟩ ⟨9⟩)
      [opensVault 100,
        (signedBy [⟨1⟩] 0, .checkIn (.updateCheckInInterval 1 200))]).any
      (fun w => (w.state.vault 1).any (fun v => v.checkInInterval = 200) ∧
        w.state.get (.vaultDuplicate ⟨1⟩ ⟨2⟩ 100) = some 1) = true := by decide +kernel
  obtain ⟨w, hw, hchecks⟩ := (Option.any_eq_true _ _).mp hplay
  simp only [decide_eq_true_eq] at hchecks
  obtain ⟨v, hv, hinterval⟩ : ∃ v, w.state.vault 1 = some v ∧ v.checkInInterval = 200 := by
    simpa [Option.any_eq_true] using hchecks.1
  intro h
  obtain ⟨v', hv', hfiled⟩ := h w ⟨1⟩ ⟨2⟩ 100 1 (reachable_of_play hw) hchecks.2
  obtain rfl := Option.some.inj (hv.symm.trans hv')
  simp [hfiled.interval] at hinterval

end Heirloom
