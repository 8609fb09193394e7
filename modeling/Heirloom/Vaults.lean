import Mathlib.Algebra.Order.BigOperators.Group.List
import Heirloom.Frame

/-!
# Creating, funding and closing vaults

The entry points of the vault life cycle: the four ways to create a vault,
deposits, the owner's settings, snapshots, cancellation and merging.
-/

namespace Heirloom

open Transaction

/-! ## Creation -/

/-- What every creation does with the finished record: save it, index it and
advance the vault count. -/
def storeNewVault (vaultId : Nat) (vault : Vault) : Contract Unit := do
  saveVault vaultId vault
  addOwnerVaultId vault.owner vaultId
  addBeneficiaryVaultId vault.beneficiary vaultId
  storageSet .vaultCount vaultId

def nextVaultId : Contract Nat := do
  u64 ((← vaultCount) + 1)

/-- The token of a new vault: the given one, if it is whitelisted, or the default. -/
def resolveVaultToken (tokenAddress : Option Address) : Contract Address :=
  ifSomeElse tokenAddress
    (fun addr => do
      assertTokenWhitelisted addr
      return addr)
    loadToken

/-- An empty locked vault. -/
def emptyVault (owner beneficiary : Address) (checkInInterval timestamp : Nat)
    (tokenAddress : Address) (parentVaultId : Option Nat) : Vault where
  owner := owner
  beneficiary := beneficiary
  balance := 0
  checkInInterval := checkInInterval
  lastCheckIn := timestamp
  createdAt := timestamp
  status := .locked
  beneficiaries := []
  metadata := ""
  tokenAddress := tokenAddress
  customMetadata := []
  isPaused := false
  releaseCondition := .ttlExpiry
  parentVaultId := parentVaultId
  passkeyHash := none
  maxDepositAmount := none
  withdrawalApprovalThreshold := none
  spendingLimit := none
  burnPercentage := 0
  inactivityPenaltyBps := none
  penaltyRecipient := none

def createVault (owner beneficiary : Address) (checkInInterval : Nat)
    (tokenAddress : Option Address) : Contract Nat := do
  requireAuth owner
  requireInitialized
  require (owner ≠ (← loadAdmin)) .adminCannotOwnVault
  require (checkInInterval ≠ 0) .invalidInterval
  assertIntervalInBounds checkInInterval
  require (owner ≠ beneficiary) .invalidBeneficiary
  let duplicate : Option Nat ← storageGet (.vaultDuplicate owner beneficiary checkInInterval)
  require (duplicate.isSome = false) .duplicateVault
  let limit : Nat := (← storageGet (.ownerVaultCount currentContractAddress)).getD 0
  let currentCount := (← loadOwnerVaultIds owner).length
  require (limit = 0 ∨ currentCount < limit) .vaultCapacityExceeded
  assertBeneficiaryCapacity beneficiary
  let vaultToken ← resolveVaultToken tokenAddress
  let vaultId ← nextVaultId
  let now ← timestamp
  storeNewVault vaultId (emptyVault owner beneficiary checkInInterval now vaultToken none)
  storageSet (.vaultPasskeys vaultId) []
  storageSet (.backupCodes vaultId) []
  storageSet (.vaultDuplicate owner beneficiary checkInInterval) vaultId
  return vaultId

def createVaultFromInheritance (parentVaultId : Nat) (caller newBeneficiary : Address)
    (checkInInterval : Nat) (tokenAddress : Option Address) : Contract Nat := do
  requireAuth caller
  requireInitialized
  let parentVault ← loadVault parentVaultId
  require (caller = parentVault.beneficiary) .notOwner
  require (parentVault.status = .released) .notExpired
  require (checkInInterval ≠ 0) .invalidInterval
  assertIntervalInBounds checkInInterval
  require (caller ≠ newBeneficiary) .invalidBeneficiary
  let vaultToken ← resolveVaultToken tokenAddress
  let vaultId ← nextVaultId
  let now ← timestamp
  storeNewVault vaultId
    (emptyVault caller newBeneficiary checkInInterval now vaultToken (some parentVaultId))
  return vaultId

/-- The copy of `original` that `cloneVault` makes: its settings, without its
funds, passkey and pause. -/
def clonedVault (original : Vault) (sourceVaultId : Nat) (newOwner newBeneficiary : Address)
    (checkInInterval timestamp : Nat) (beneficiaries : List BeneficiaryEntry)
    (metadata : String) : Vault :=
  { original with
    owner := newOwner
    beneficiary := newBeneficiary
    balance := 0
    checkInInterval := checkInInterval
    lastCheckIn := timestamp
    createdAt := timestamp
    status := .locked
    beneficiaries := beneficiaries
    metadata := metadata
    isPaused := false
    parentVaultId := some sourceVaultId
    passkeyHash := none }

/-- The vault to clone, for its owner, while it is locked. -/
def loadCloneSource (sourceVaultId : Nat) (newOwner newBeneficiary : Address) :
    Contract Vault := do
  let original ← loadLockedByOwner sourceVaultId newOwner
  require (newOwner ≠ newBeneficiary) .invalidBeneficiary
  return original

def cloneVault (sourceVaultId : Nat) (newOwner newBeneficiary : Address) : Contract Nat := do
  let original ← loadCloneSource sourceVaultId newOwner newBeneficiary
  let newVaultId ← nextVaultId
  let now ← timestamp
  storeNewVault newVaultId
    (clonedVault original sourceVaultId newOwner newBeneficiary original.checkInInterval now
      original.beneficiaries original.metadata)
  return newVaultId

def resolveIntervalOverride (overrideInterval : Option Nat) (interval : Nat) : Contract Nat :=
  ifSomeElse overrideInterval
    (fun i => do
      require (i ≠ 0) .invalidInterval
      assertIntervalInBounds i
      return i)
    (pure interval)

def resolveBeneficiariesOverride (overrideBeneficiaries : Option (List BeneficiaryEntry))
    (owner : Address) (beneficiaries : List BeneficiaryEntry) :
    Contract (List BeneficiaryEntry) :=
  ifSomeElse overrideBeneficiaries
    (fun entries => do
      onlyIf (entries ≠ []) (validateSplit owner entries)
      return entries)
    (pure beneficiaries)

def resolveMetadataOverride (overrideMetadata : Option String) (metadata : String) :
    Contract String :=
  ifSomeElse overrideMetadata
    (fun m => do
      assertMetadataLen m
      return m)
    (pure metadata)

def cloneVaultWithOverrides (sourceVaultId : Nat) (newOwner newBeneficiary : Address)
    (overrideInterval : Option Nat) (overrideBeneficiaries : Option (List BeneficiaryEntry))
    (overrideMetadata : Option String) : Contract Nat := do
  let original ← loadCloneSource sourceVaultId newOwner newBeneficiary
  let checkInInterval ← resolveIntervalOverride overrideInterval original.checkInInterval
  let beneficiaries ←
    resolveBeneficiariesOverride overrideBeneficiaries newOwner original.beneficiaries
  let metadata ← resolveMetadataOverride overrideMetadata original.metadata
  let newVaultId ← nextVaultId
  let now ← timestamp
  storeNewVault newVaultId
    (clonedVault original sourceVaultId newOwner newBeneficiary checkInInterval now
      beneficiaries metadata)
  return newVaultId

/-! ## Deposits -/

/-- A call that needs the owner's deadline not to have passed. -/
def assertBeforeDeadline (vault : Vault) : Contract Unit := do
  let deadline ← u64 (vault.lastCheckIn + vault.checkInInterval)
  require ((← timestamp) < deadline) .vaultExpired

def deposit (vaultId : Nat) (source : Address) (amount : Int) : Contract Unit := do
  assertNotPaused
  requireInitialized
  require (0 < amount) .invalidAmount
  requireAuth source
  let vault ← loadVault vaultId
  require (source = vault.owner) .unauthorizedDepositor
  require (vault.isPaused = false) .paused
  require (vault.status = .locked) .alreadyReleased
  assertBeforeDeadline vault
  ifSome vault.maxDepositAmount fun maxDeposit => do
    let newBalance ← checkedAdd vault.balance amount .balanceOverflow
    require (newBalance ≤ maxDeposit) .depositLimitExceeded
  transfer vault.tokenAddress source currentContractAddress amount
  let newBalance ← checkedAdd vault.balance amount .balanceOverflow
  saveVault vaultId (vault.withBalance newBalance)

/-- A deposit of a batch that passed the checks, with the vault as it was read. -/
structure ValidatedDeposit where
  vaultId : Nat
  vault : Vault
  amount : Int

/-- The checks of one deposit of a batch, adding it to those checked so far. -/
def validateDeposit (acc : List ValidatedDeposit × Int) (item : Nat × Int) :
    Contract (List ValidatedDeposit × Int) := do
  require (0 < item.2) .invalidAmount
  let vault ← loadVault item.1
  require (vault.status = .locked) .alreadyReleased
  assertBeforeDeadline vault
  assertTokenWhitelisted vault.tokenAddress
  let total ← checkedAdd acc.2 item.2 .invalidAmount
  return (acc.1 ++ [⟨item.1, vault, item.2⟩], total)

/-- Credits one deposit of a batch to the vault as it was read by the checks. -/
def creditDeposit (defaultToken : Address) (d : ValidatedDeposit) : Contract Unit := do
  require (d.vault.tokenAddress = defaultToken) .invalidAmount
  let newBalance ← checkedAdd d.vault.balance d.amount .balanceOverflow
  saveVault d.vaultId (d.vault.withBalance newBalance)

def batchDeposit (source : Address) (deposits : List (Nat × Int)) : Contract Unit := do
  assertNotPaused
  requireAuth source
  let defaultToken ← loadToken
  let (validated, total) ← foldEach deposits ([], 0) validateDeposit
  onlyIf (total ≠ 0) do
    transfer defaultToken source currentContractAddress total
    forEach validated (creditDeposit defaultToken)

/-! ## The owner's settings -/

def updateMetadata (vaultId : Nat) (caller : Address) (metadata : String) :
    Contract Unit := do
  requireAuth caller
  require (metadata.utf8ByteSize ≤ maxMetadataLen) .invalidAmount
  let vault ← loadLockedByOwner vaultId caller
  saveVault vaultId { vault with metadata := metadata }

def setVaultMetadata (vaultId : Nat) (caller : Address) (metadata : Bytes) :
    Contract Unit := do
  requireAuth caller
  require (metadata.length ≤ maxCustomMetadataLen) .invalidAmount
  requireUtf8MetadataBytes metadata
  let vault ← loadLockedByOwner vaultId caller
  saveVault vaultId { vault with customMetadata := metadata }

def updateMetadataVersioned (vaultId : Nat) (caller : Address) (newMetadata : String) :
    Contract Unit := do
  requireAuth caller
  assertMetadataLen newMetadata
  let vault ← loadLockedByOwner vaultId caller
  let history : List MetadataVersionEntry :=
    (← storageGet (.metadataHistory vaultId)).getD []
  let version ← u32 (history.length + 1)
  storageSet (.metadataHistory vaultId)
    (history ++ [⟨version, vault.metadata, ← timestamp, caller⟩])
  saveVault vaultId { vault with metadata := newMetadata }

def revertMetadata (vaultId : Nat) (caller : Address) (version : Nat) : Contract Unit := do
  let vault ← loadLockedByOwner vaultId caller
  let history : List MetadataVersionEntry :=
    (← storageGet (.metadataHistory vaultId)).getD []
  let entry ← fromSome (history.find? (·.version = version)) (.error .metadataVersionNotFound)
  saveVault vaultId { vault with metadata := entry.metadata }

def pauseVault (vaultId : Nat) (caller : Address) : Contract Unit := do
  let vault ← loadLockedByOwner vaultId caller
  saveVault vaultId { vault with isPaused := true }

def resumeVault (vaultId : Nat) (caller : Address) : Contract Unit := do
  let vault ← loadLockedByOwner vaultId caller
  saveVault vaultId { vault with isPaused := false }

def setSpendingLimit (vaultId : Nat) (limit : Option Int) : Contract Unit := do
  let vault ← loadVault vaultId
  requireAuth vault.owner
  ifSome limit fun l => require (0 < l) .invalidAmount
  saveVault vaultId { vault with spendingLimit := limit }

def setBurnPercentage (vaultId percentage : Nat) : Contract Unit := do
  let vault ← loadVault vaultId
  requireAuth vault.owner
  require (percentage ≤ 10000) .invalidAmount
  saveVault vaultId { vault with burnPercentage := percentage }

def archiveVault (vaultId : Nat) (caller : Address) : Contract Unit := do
  requireAuth caller
  let vault ← loadVault vaultId
  let admin ← loadAdmin
  require (caller = vault.owner ∨ caller = admin) .notOwner
  require (vault.status ≠ .locked) .notExpired
  storageSet (.archivedVault vaultId) vault

def restoreVault (vaultId : Nat) : Contract Unit := do
  let _ ← loadVault vaultId
  storageRemove (.archivedVault vaultId)

/-- Drops a stale archive snapshot of a vault that is live. -/
def tryRestoreArchivedVault (vaultId : Nat) : Contract Unit := do
  let archived : Option Vault ← storageGet (.archivedVault vaultId)
  let vault ← tryLoadVault vaultId
  onlyIf (archived.isSome = true ∧ vault.isSome = true) (storageRemove (.archivedVault vaultId))

/-! ## Snapshots -/

/-- Stores the vault as it is now. Of more than `maxSnapshots` the oldest is dropped. -/
def createVaultSnapshot (vaultId : Nat) : Contract Bytes := do
  let vault ← loadVault vaultId
  let now ← timestamp
  let vaultBytes ← ask (·.toXdr vault)
  let contentHash ← ask (·.sha256 vaultBytes)
  storageSet (.vaultSnapshot vaultId now) ⟨vault, now, contentHash⟩
  let listed : List Nat := (← storageGet (.vaultSnapshotTimestamps vaultId)).getD []
  let timestamps := listed ++ [now]
  if maxSnapshots < timestamps.length then do
    ifSome timestamps.head? fun oldest => storageRemove (.vaultSnapshot vaultId oldest)
    storageSet (.vaultSnapshotTimestamps vaultId) timestamps.tail
  else
    storageSet (.vaultSnapshotTimestamps vaultId) timestamps
  return contentHash.toList

def getVaultSnapshot (vaultId timestamp : Nat) : Contract Vault := do
  let snapshot : VaultSnapshot ←
    fromSome (← storageGet (.vaultSnapshot vaultId timestamp)) (.error .snapshotNotFound)
  return snapshot.vault

/-! ## Closing -/

def cancelVault (vaultId : Nat) (caller : Address) : Contract Unit := do
  require ((← loadPaused) = false) .paused
  requireAuth caller
  let vault ← loadVault vaultId
  require (caller = vault.owner) .notOwner
  require (vault.status ≠ .emergencyFrozen) .vaultFrozen
  require (vault.status = .locked) .alreadyReleased
  let config : Option MultiSigConfig ← storageGet (.multiSigConfig vaultId)
  require (config.isSome = false) .multiSigRequired
  onlyIf (0 < vault.balance) do
    transfer vault.tokenAddress currentContractAddress vault.owner vault.balance
  saveVault vaultId ((vault.withBalance 0).withStatus .cancelled)
  removeOwnerVaultId vault.owner vaultId
  removeBeneficiaryVaultId vault.beneficiary vaultId
  storageRemove (.vaultDuplicate vault.owner vault.beneficiary vault.checkInInterval)
  recordStateTransition vaultId .locked .cancelled caller

/-- The checks `mergeVaults` makes of one source before it changes anything. -/
def validateMergeSource (targetVaultId : Nat) (target : Vault) (sourceId : Nat) :
    Contract Unit := do
  require (sourceId ≠ targetVaultId) .invalidAmount
  let source ← loadVault sourceId
  require (source.owner = target.owner) .notOwner
  require (source.tokenAddress = target.tokenAddress) .incompatibleVaultToken
  require (source.status = .locked) .alreadyReleased

/-- Empties and cancels one source; the result is the target's new balance. -/
def drainMergeSource (balance : Int) (sourceId : Nat) : Contract Int := do
  let source ← loadVault sourceId
  let newBalance ← checkedAdd balance source.balance .balanceOverflow
  saveVault sourceId ((source.withBalance 0).withStatus .cancelled)
  removeOwnerVaultId source.owner sourceId
  removeBeneficiaryVaultId source.beneficiary sourceId
  return newBalance

def mergeVaults (targetVaultId : Nat) (sourceVaultIds : List Nat) (caller : Address) :
    Contract Unit := do
  assertNotPaused
  let target ← loadLockedByOwner targetVaultId caller
  forEach sourceVaultIds (validateMergeSource targetVaultId target)
  let targetVault ← loadVault targetVaultId
  let newBalance ← foldEach sourceVaultIds targetVault.balance drainMergeSource
  saveVault targetVaultId (targetVault.withBalance newBalance)

/-- The entry points of the vault life cycle. -/
inductive VaultCall
  | createVault (owner beneficiary : Address) (checkInInterval : Nat)
      (tokenAddress : Option Address)
  | createVaultFromInheritance (parentVaultId : Nat) (caller newBeneficiary : Address)
      (checkInInterval : Nat) (tokenAddress : Option Address)
  | cloneVault (sourceVaultId : Nat) (newOwner newBeneficiary : Address)
  | cloneVaultWithOverrides (sourceVaultId : Nat) (newOwner newBeneficiary : Address)
      (overrideInterval : Option Nat) (overrideBeneficiaries : Option (List BeneficiaryEntry))
      (overrideMetadata : Option String)
  | deposit (vaultId : Nat) (source : Address) (amount : Int)
  | batchDeposit (source : Address) (deposits : List (Nat × Int))
  | updateMetadata (vaultId : Nat) (caller : Address) (metadata : String)
  | setVaultMetadata (vaultId : Nat) (caller : Address) (metadata : Bytes)
  | updateMetadataVersioned (vaultId : Nat) (caller : Address) (newMetadata : String)
  | revertMetadata (vaultId : Nat) (caller : Address) (version : Nat)
  | pauseVault (vaultId : Nat) (caller : Address)
  | resumeVault (vaultId : Nat) (caller : Address)
  | setSpendingLimit (vaultId : Nat) (limit : Option Int)
  | setBurnPercentage (vaultId percentage : Nat)
  | archiveVault (vaultId : Nat) (caller : Address)
  | restoreVault (vaultId : Nat)
  | createVaultSnapshot (vaultId : Nat)
  | cancelVault (vaultId : Nat) (caller : Address)
  | mergeVaults (targetVaultId : Nat) (sourceVaultIds : List Nat) (caller : Address)

def execVault : VaultCall → Contract Unit
  | .createVault o b i t => do let _ ← createVault o b i t
  | .createVaultFromInheritance p c b i t => do let _ ← createVaultFromInheritance p c b i t
  | .cloneVault v o b => do let _ ← cloneVault v o b
  | .cloneVaultWithOverrides v o b i bs m => do let _ ← cloneVaultWithOverrides v o b i bs m
  | .deposit v a x => deposit v a x
  | .batchDeposit a ds => batchDeposit a ds
  | .updateMetadata v c m => updateMetadata v c m
  | .setVaultMetadata v c m => setVaultMetadata v c m
  | .updateMetadataVersioned v c m => updateMetadataVersioned v c m
  | .revertMetadata v c n => revertMetadata v c n
  | .pauseVault v c => pauseVault v c
  | .resumeVault v c => resumeVault v c
  | .setSpendingLimit v l => setSpendingLimit v l
  | .setBurnPercentage v p => setBurnPercentage v p
  | .archiveVault v c => archiveVault v c
  | .restoreVault v => restoreVault v
  | .createVaultSnapshot v => do let _ ← createVaultSnapshot v
  | .cancelVault v c => cancelVault v c
  | .mergeVaults t ss c => mergeVaults t ss c

/-! ## Footprints -/

/-- What the creation of a vault may write. -/
def State.creation (s : State) : Footprint :=
  ⟨[s.count + 1], [.creation], [.count, .indexes, .duplicates, .keyring, .codes]⟩

/-- What a call of the vault life cycle may write. -/
def VaultCall.footprint (s : State) : VaultCall → Footprint
  | .createVault _ _ _ _ | .createVaultFromInheritance _ _ _ _ _ | .cloneVault _ _ _
  | .cloneVaultWithOverrides _ _ _ _ _ _ => s.creation
  | .deposit v _ _ => ⟨[v], [.balance, .funds], []⟩
  | .batchDeposit _ ds => ⟨ds.map (·.1), [.balance, .funds], []⟩
  | .setBurnPercentage v _ => ⟨[v], [.burn], []⟩
  | .setSpendingLimit v _ => ⟨[v], [.limit], []⟩
  | .createVaultSnapshot v => ⟨[v], [], [.snapshots]⟩
  | .cancelVault v _ => ⟨[v], [.balance, .status, .funds], [.indexes, .transitions, .duplicates]⟩
  | .mergeVaults t ss _ => ⟨t :: ss, [.balance, .status], [.indexes]⟩
  | .updateMetadata v _ _ | .setVaultMetadata v _ _ | .updateMetadataVersioned v _ _
  | .revertMetadata v _ _ | .pauseVault v _ | .resumeVault v _ | .archiveVault v _
  | .restoreVault v => ⟨[v], [], [.registry]⟩

section Creation

variable {e : Env} {s t : State} {v : Vault} {Q : Unit → State → Prop}

/-- The record of a vault just created: empty and locked, its split, its burn
percentage, its spending limit and its penalty unset, checked or copied from another
vault. -/
structure Vault.Fresh (s : State) (v : Vault) : Prop where
  apart : v.owner ≠ v.beneficiary
  balance : v.balance = 0
  status : v.status = .locked
  split : v.beneficiaries = [] ∨ totalBps v.beneficiaries = 10000 ∨
    ∃ id o, s.vault id = some o ∧ v.beneficiaries = o.beneficiaries
  burn : v.burnPercentage = 0 ∨ ∃ id o, s.vault id = some o ∧ v.burnPercentage = o.burnPercentage
  limit : v.spendingLimit = none ∨ ∃ id o, s.vault id = some o ∧ v.spendingLimit = o.spendingLimit
  penalty : v.inactivityPenaltyBps = none ∨
    ∃ id o, s.vault id = some o ∧ v.inactivityPenaltyBps = o.inactivityPenaltyBps

/-- The vault `v` was added under the next number. -/
structure Creates (v : Vault) (s t : State) : Prop where
  fresh : v.Fresh s
  vault : ∀ i, t.vault i = if i = s.count + 1 then some v else s.vault i
  count : t.count = s.count + 1
  frame : s.Numbered → Frame s.creation s t

theorem fresh_emptyVault {owner beneficiary token : Address} {interval now : Nat}
    {parent : Option Nat} (h : owner ≠ beneficiary) :
    (emptyVault owner beneficiary interval now token parent).Fresh s :=
  ⟨h, rfl, rfl, .inl rfl, .inl rfl, .inl rfl, .inl rfl⟩

theorem fresh_clonedVault {original : Vault} {source interval now : Nat}
    {owner beneficiary : Address} {heirs : List BeneficiaryEntry} {metadata : String}
    (h : owner ≠ beneficiary) (ho : s.vault source = some original)
    (hheirs : heirs = [] ∨ totalBps heirs = 10000 ∨ heirs = original.beneficiaries) :
    (clonedVault original source owner beneficiary interval now heirs metadata).Fresh s :=
  ⟨h, rfl, rfl, hheirs.imp_right (·.imp_right fun h => ⟨source, original, ho, h⟩),
    .inr ⟨source, original, ho, rfl⟩, .inr ⟨source, original, ho, rfl⟩,
    .inr ⟨source, original, ho, rfl⟩⟩

theorem wp_storeNewVault (hv : v.Fresh s) (h : ∀ t, Creates v s t → Q () t) :
    wp (storeNewVault (s.count + 1) v) Q e s := by
  simp only [storeNewVault, addOwnerVaultId, addBeneficiaryVaultId, Tx.wp_bind, wp_saveVault,
    wp_loadOwnerVaultIds, wp_storageSet, wp_loadBeneficiaryVaultIds]
  refine h _ ⟨hv, by simp, by simp [State.count], fun hs => ?_⟩
  simp [State.creation, hs (s.count + 1) (Nat.lt_succ_self _)]

/-- What else a creation writes does not matter. -/
theorem Creates.put {k : DataKey} {x : k.Value} (h : Creates v s t)
    (hk : k.area = .indexes ∨ k.area = .duplicates ∨ k.area = .keyring ∨ k.area = .codes)
    (hid : ∀ i, k.vaultId? = some i → i = s.count + 1) : Creates v s (t.put k x) where
  fresh := h.fresh
  vault := by
    intro i
    rw [State.vault_put (by rintro j rfl; simp at hk)]
    exact h.vault i
  count := by
    rw [State.count, State.get_put_of_ne (by rintro rfl; simp at hk)]
    exact h.count
  frame := by
    intro hs
    refine (Frame.put ?_ ?_ (by rintro j rfl; simp at hk)).mpr (h.frame hs)
    · simp only [State.creation, List.mem_cons, List.not_mem_nil, or_false]
      exact .inr hk
    · simpa [State.creation] using hid

theorem createVault_spec {o b : Address} {i : Nat} {token : Option Address} :
    wp (createVault o b i token) (fun _ t => ∃ v, Creates v s t) e s := by
  simp [createVault, resolveVaultToken, nextVaultId]
  intros
  refine ⟨fun _ _ _ _ _ => ?_, fun _ _ _ _ => ?_⟩ <;>
    exact wp_storeNewVault (fresh_emptyVault (by assumption)) fun t ht =>
      ⟨_, ((ht.put (by simp) (by simp)).put (by simp) (by simp)).put (by simp) (by simp)⟩

theorem createVaultFromInheritance_spec {p : Nat} {c b : Address} {i : Nat}
    {token : Option Address} :
    wp (createVaultFromInheritance p c b i token) (fun _ t => ∃ v, Creates v s t) e s := by
  simp [createVaultFromInheritance, resolveVaultToken, nextVaultId]
  intros
  refine ⟨fun _ _ _ _ _ => ?_, fun _ _ _ _ => ?_⟩ <;>
    exact wp_storeNewVault (fresh_emptyVault (by assumption)) fun t ht => ⟨_, ht⟩

theorem cloneVault_spec {source : Nat} {o b : Address} :
    wp (cloneVault source o b) (fun _ t => ∃ v, Creates v s t) e s := by
  simp [cloneVault, loadCloneSource, nextVaultId]
  intro _ original ho _ _ hne
  intros
  exact wp_storeNewVault (fresh_clonedVault hne ho (.inr (.inr rfl))) fun t ht => ⟨_, ht⟩

theorem wp_resolveBeneficiariesOverride {o : Option (List BeneficiaryEntry)} {a : Address}
    {heirs : List BeneficiaryEntry} {Q : List BeneficiaryEntry → State → Prop}
    (h : ∀ l, l = [] ∨ totalBps l = 10000 ∨ l = heirs → Q l s) :
    wp (resolveBeneficiariesOverride o a heirs) Q e s := by
  simp only [resolveBeneficiariesOverride, Tx.wp_ifSomeElse, Tx.wp_bind, Tx.wp_onlyIf,
    wp_validateSplit, Tx.wp_pure]
  refine ⟨fun entries _ => ⟨fun _ _ htotal _ => ?_, fun hempty => ?_⟩, fun _ => ?_⟩
  · exact h entries (.inr (.inl htotal))
  · exact h entries (.inl (not_not.mp hempty))
  · exact h heirs (.inr (.inr rfl))

@[simp ↓] theorem wp_resolveIntervalOverride {o : Option Nat} {i : Nat}
    {Q : Nat → State → Prop} :
    wp (resolveIntervalOverride o i) Q e s ↔
      ∀ n, resolveIntervalOverride o i e s = .ok (n, s) → Q n s :=
  Tx.ReadOnly.wp_iff fun _ _ => by simp [resolveIntervalOverride]

@[simp ↓] theorem wp_resolveMetadataOverride {o : Option String} {m : String}
    {Q : String → State → Prop} :
    wp (resolveMetadataOverride o m) Q e s ↔
      ∀ m', resolveMetadataOverride o m e s = .ok (m', s) → Q m' s :=
  Tx.ReadOnly.wp_iff fun _ _ => by simp [resolveMetadataOverride]

theorem cloneVaultWithOverrides_spec {source : Nat} {o b : Address} {i : Option Nat}
    {bs : Option (List BeneficiaryEntry)} {m : Option String} :
    wp (cloneVaultWithOverrides source o b i bs m) (fun _ t => ∃ v, Creates v s t) e s := by
  simp [cloneVaultWithOverrides, loadCloneSource, nextVaultId]
  intro _ original ho _ _ hne interval _
  refine wp_resolveBeneficiariesOverride fun heirs hheirs => ?_
  intro metadata _ _
  exact wp_storeNewVault (fresh_clonedVault hne ho hheirs) fun t ht => ⟨_, ht⟩

end Creation

/-! ## Deposits -/

section Deposits

variable {e : Env} {s : State}

theorem deposit_spec {id : Nat} {source : Address} {amount : Int} :
    wp (deposit id source amount)
      (fun _ t => ∃ v, Transacts id v (v.withBalance (v.balance + amount))
        [incoming v.tokenAddress source amount] s t ∧
        0 < amount ∧ source = v.owner ∧ v.status = .locked ∧ e.authorized source = true) e s := by
  simp [deposit, assertBeforeDeadline]
  intro _ _ hamount hauth v hv hsource _ hlocked _ _
  refine ⟨fun _ _ _ _ _ _ _ _ => ?_, fun _ _ _ _ => ?_⟩ <;>
    exact ⟨v, .save hv (fun _ => rfl) rfl (fair_incoming hamount.le) rfl, hamount, hsource,
      hlocked, hauth⟩

/-- The state after crediting a deposit of a batch. -/
def State.creditBatch (s : State) (d : ValidatedDeposit) : State :=
  s.put (.vault d.vaultId) (d.vault.withBalance (d.vault.balance + d.amount))

/-- The deposits of a batch as the checks leave them: read in `s`, all positive. -/
structure Validated (s : State) (deposits : List (Nat × Int)) (ds : List ValidatedDeposit) :
    Prop where
  items : ds.map (fun d => (d.vaultId, d.amount)) = deposits
  read : ∀ d ∈ ds, s.vault d.vaultId = some d.vault ∧ 0 < d.amount ∧ d.vault.status = .locked

theorem validateDeposits_spec {deposits : List (Nat × Int)} :
    wp (foldEach deposits ([], 0) validateDeposit)
      (fun acc t => t = s ∧ Validated s deposits acc.1 ∧
        acc.2 = (acc.1.map (·.amount)).sum) e s := by
  suffices h : ∀ (done : List ValidatedDeposit) (prior : List (Nat × Int)), Validated s prior done →
      wp (foldEach deposits (done, (done.map (·.amount)).sum) validateDeposit)
        (fun acc t => t = s ∧ Validated s (prior ++ deposits) acc.1 ∧
          acc.2 = (acc.1.map (·.amount)).sum) e s by
    simpa using h [] [] ⟨rfl, by simp⟩
  induction deposits with
  | nil => intro done prior h; simpa [foldEach] using h
  | cons item items ih =>
      intro done prior h
      simp [foldEach, validateDeposit, assertBeforeDeadline]
      intro hamount v hv hlocked _ _ _ _ _ _
      have hone : Validated s (prior ++ [item]) (done ++ [⟨item.1, v, item.2⟩]) :=
        ⟨by simp [h.items], fun d hd => (List.mem_append.mp hd).elim (h.read d) (by
          rintro hd
          obtain rfl := List.mem_singleton.mp hd
          exact ⟨hv, hamount, hlocked⟩)⟩
      simpa using ih _ _ hone

/-- Only an empty batch has the total zero. -/
theorem Validated.eq_nil_of_sum {deposits : List (Nat × Int)} {ds : List ValidatedDeposit}
    (h : Validated s deposits ds) (hsum : (ds.map (·.amount)).sum = 0) : deposits = [] := by
  rw [← h.items]
  cases ds with
  | nil => rfl
  | cons d ds =>
      obtain ⟨⟨-, hpos, -⟩, hrest⟩ := List.forall_mem_cons.mp h.read
      have hnonneg : 0 ≤ (ds.map (·.amount)).sum := by
        refine List.sum_nonneg fun x hx => ?_
        obtain ⟨d', hd', rfl⟩ := List.mem_map.mp hx
        exact (hrest d' hd').2.1.le
      rw [List.map_cons, List.sum_cons] at hsum
      omega

/-- A batch moves its total into the contract and then credits each deposit to
the record that the checks have read. -/
theorem batchDeposit_spec {source : Address} {deposits : List (Nat × Int)} :
    wp (batchDeposit source deposits)
      (fun _ t => t = s ∧ deposits = [] ∨ ∃ token ds, Validated s deposits ds ∧
        (∀ d ∈ ds, d.vault.tokenAddress = token) ∧ e.authorized source = true ∧
        deposits ≠ [] ∧ t = ds.foldl State.creditBatch
          (s.pay token source currentContractAddress (ds.map (·.amount)).sum)) e s := by
  simp only [batchDeposit, Tx.wp_bind, wp_assertNotPaused, wp_requireAuth, wp_loadToken]
  intro _ hauth token _
  refine Tx.wp_mono validateDeposits_spec ?_
  rintro ⟨ds, total⟩ _ ⟨rfl, hds, htotal⟩
  obtain rfl : total = (ds.map (·.amount)).sum := htotal
  simp only [Tx.wp_onlyIf, Tx.wp_bind, wp_transfer]
  refine ⟨fun hne _ => ?_, fun hzero => .inl ⟨trivial, hds.eq_nil_of_sum (not_not.mp hzero)⟩⟩
  have hsome : deposits ≠ [] := by
    rintro rfl
    obtain rfl : ds = [] := List.map_eq_nil_iff.mp hds.items
    exact hne rfl
  refine Tx.wp_mono (Tx.wp_forEach_foldl (g := State.creditBatch)
    (C := fun d => d.vault.tokenAddress = token) ?_) ?_
  · intro d t
    simpa [creditDeposit, State.creditBatch] using fun h _ _ => h
  · rintro _ _ ⟨rfl, htoken⟩
    exact .inr ⟨token, ds, hds, htoken, hauth, hsome, rfl⟩

end Deposits

/-! ## Closing -/

section Closing

variable {e : Env} {s : State} {id : Nat}

/-- What a cancelled vault pays back to its owner. -/
def Vault.refund (v : Vault) : Log :=
  if 0 < v.balance then [outgoing v.tokenAddress v.owner v.balance] else []

/-- A cancelled vault has paid its balance back to the owner. -/
theorem cancelVault_spec {caller : Address} :
    wp (cancelVault id caller)
      (fun _ t => ∃ v, Transacts id v ((v.withBalance 0).withStatus .cancelled)
        v.refund s t ∧
        v.status = .locked ∧ caller = v.owner ∧ e.authorized caller = true ∧
        s.get (.multiSigConfig id) = none) e s := by
  simp [cancelVault]
  intro _ hauth v hv howner _ hlocked hconfig
  refine ⟨fun hpos _ => ?_, fun hneg => ?_⟩
  · have hrefund : v.refund = [outgoing v.tokenAddress v.owner v.balance] := if_pos hpos
    exact ⟨v, .save hv (fun _ => rfl) (by rw [hrefund]; rfl) (hrefund ▸ fair_outgoing hpos.le) rfl,
      hlocked, howner, hauth, hconfig⟩
  · have hrefund : v.refund = [] := if_neg (not_lt.mpr hneg)
    exact ⟨v, .save hv (fun _ => rfl) (by rw [hrefund]; rfl) (hrefund ▸ fair_nil) rfl,
      hlocked, howner, hauth, hconfig⟩

/-- One round of a merge empties and cancels a source. -/
theorem drainMergeSource_spec {balance : Int} :
    wp (drainMergeSource balance id)
      (fun balance' t => ∃ v, Transacts id v ((v.withBalance 0).withStatus .cancelled) [] s t ∧
        balance' = balance + v.balance) e s := by
  simp [drainMergeSource]
  intro v hv _ _
  exact ⟨v, .save hv (fun _ => rfl) rfl fair_nil rfl, rfl⟩

theorem validateMergeSources_spec {target : Vault} {sources : List Nat} :
    wp (forEach sources (validateMergeSource id target))
      (fun _ t => t = s ∧ ∀ i ∈ sources, i ≠ id ∧
        ∃ v, s.vault i = some v ∧ v.owner = target.owner ∧
          v.tokenAddress = target.tokenAddress ∧ v.status = .locked) e s := by
  induction sources with
  | nil => simp [forEach]
  | cons i is ih =>
      simp [forEach, validateMergeSource]
      intro hne v hv howner htoken hlocked
      refine Tx.wp_mono ih ?_
      rintro _ _ ⟨rfl, his⟩
      exact ⟨rfl, ⟨hne, v, hv, howner, htoken, hlocked⟩, his⟩

/-- The invariant rule of `mergeVaults`: the sources are drained one by one into
a balance that the target then gets. -/
theorem mergeVaults_rule {sources : List Nat} {caller : Address} {I : Int → State → Prop}
    {Q : Unit → State → Prop}
    (hstart : ∀ target, s.vault id = some target → I target.balance s)
    (hdrain : ∀ balance i v t u, i ∈ sources → i ≠ id → I balance t →
      Transacts i v ((v.withBalance 0).withStatus .cancelled) [] t u → I (balance + v.balance) u)
    (hend : ∀ target balance t, s.vault id = some target → target.status = .locked →
      (∀ i ∈ sources, i ≠ id ∧ ∃ v, s.vault i = some v ∧ v.owner = target.owner ∧
        v.tokenAddress = target.tokenAddress ∧ v.status = .locked) →
      caller = target.owner → e.authorized caller = true → I balance t →
      Q () (t.put (.vault id) (target.withBalance balance))) :
    wp (mergeVaults id sources caller) Q e s := by
  simp only [mergeVaults, Tx.wp_bind, wp_assertNotPaused, wp_loadLockedByOwner]
  intro _ hauth target htarget howner hlocked
  refine Tx.wp_mono validateMergeSources_spec ?_
  rintro _ _ ⟨rfl, hsources⟩
  simp only [wp_loadVault]
  intro target' htarget'
  obtain rfl : target' = target := by simpa [htarget] using htarget'.symm
  refine Tx.wp_mono (Tx.wp_foldEach (I := I) ?_ (hstart _ htarget)) ?_
  · intro i hi balance t hI
    refine Tx.wp_mono drainMergeSource_spec ?_
    rintro _ u ⟨v, hu, rfl⟩
    exact hdrain balance i v t u hi (hsources i hi).1 hI hu
  · intro balance t hI
    simpa using hend _ balance t htarget hlocked hsources howner hauth hI

end Closing

/-! ## Frames -/

section Frames

variable {e : Env} {s : State}

/-- Crediting deposits to the records of `s` changes balances only. -/
theorem creditBatch_frame {f : Footprint} {ds : List ValidatedDeposit} {t : State}
    (hbalance : .balance ∈ f.parts)
    (hds : ∀ d ∈ ds, d.vaultId ∈ f.vaults ∧ s.vault d.vaultId = some d.vault)
    (h : Frame f s t) : Frame f s (ds.foldl State.creditBatch t) := by
  induction ds generalizing t with
  | nil => exact h
  | cons d ds ih =>
      obtain ⟨⟨hid, hv⟩, hrest⟩ := List.forall_mem_cons.mp hds
      refine ih hrest ((Frame.put_vault hid h).mpr ?_)
      simp [hv, Vault.agreeOff_iff, hbalance]

theorem batchDeposit_frame {source : Address} {deposits : List (Nat × Int)} :
    wp (batchDeposit source deposits)
      (fun _ t => Frame ⟨deposits.map (·.1), [.balance, .funds], []⟩ s t) e s := by
  refine Tx.wp_mono batchDeposit_spec ?_
  rintro _ _ (⟨rfl, -⟩ | ⟨token, ds, hds, -, -, -, rfl⟩)
  · exact .refl
  · refine creditBatch_frame (by simp) (fun d hd => ⟨?_, (hds.read d hd).1⟩) (by simp)
    rw [← hds.items, List.map_map]
    exact List.mem_map_of_mem hd

theorem mergeVaults_frame {target : Nat} {sources : List Nat} {caller : Address} :
    wp (mergeVaults target sources caller)
      (fun _ t => Frame ⟨target :: sources, [.balance, .status], [.indexes]⟩ s t) e s := by
  simp only [mergeVaults, Tx.wp_bind, wp_assertNotPaused, wp_loadLockedByOwner]
  intro _ _ v hv _ _
  refine Tx.wp_mono validateMergeSources_spec ?_
  rintro _ u ⟨hu, -⟩
  obtain rfl := hu.symm
  simp only [wp_loadVault, hv, Option.some.injEq, forall_eq']
  refine Tx.wp_mono (Tx.wp_foldEach
    (I := fun _ t => Frame ⟨target :: sources, [.balance, .status], [.indexes]⟩ s t) ?_ .refl) ?_
  · intro i hi _ t ht
    simp [drainMergeSource]
    intro w hw _ _
    exact ht.save (List.mem_cons_of_mem _ hi) hw (by simp [Vault.agreeOff_iff])
  · intro balance t ht
    simp [ht, hv, Vault.agreeOff_iff]

theorem execVault_frame (c : VaultCall) (hs : s.Numbered) :
    wp (execVault c) (fun _ t => Frame (c.footprint s) s t) e s := by
  have hcreate : ∀ {t}, (∃ v, Creates v s t) → Frame s.creation s t := fun ⟨_, h⟩ => h.frame hs
  cases c with
  | createVault =>
      simp only [execVault, Tx.wp_bind, Tx.wp_pure]
      exact Tx.wp_mono createVault_spec fun _ _ => hcreate
  | createVaultFromInheritance =>
      simp only [execVault, Tx.wp_bind, Tx.wp_pure]
      exact Tx.wp_mono createVaultFromInheritance_spec fun _ _ => hcreate
  | cloneVault =>
      simp only [execVault, Tx.wp_bind, Tx.wp_pure]
      exact Tx.wp_mono cloneVault_spec fun _ _ => hcreate
  | cloneVaultWithOverrides =>
      simp only [execVault, Tx.wp_bind, Tx.wp_pure]
      exact Tx.wp_mono cloneVaultWithOverrides_spec fun _ _ => hcreate
  | deposit =>
      simp [execVault, VaultCall.footprint, deposit, assertBeforeDeadline]
      intros
      constructor <;> intros <;> simp [*, Vault.agreeOff_iff]
  | batchDeposit => exact batchDeposit_frame
  | updateMetadata =>
      simp [execVault, VaultCall.footprint, updateMetadata]
      intros
      simp [*, Vault.agreeOff_iff]
  | setVaultMetadata =>
      simp [execVault, VaultCall.footprint, setVaultMetadata]
      intros
      simp [*, Vault.agreeOff_iff]
  | updateMetadataVersioned =>
      simp [execVault, VaultCall.footprint, updateMetadataVersioned]
      intros
      simp [*, Vault.agreeOff_iff]
  | revertMetadata =>
      simp [execVault, VaultCall.footprint, revertMetadata]
      intros
      simp [*, Vault.agreeOff_iff]
  | pauseVault =>
      simp [execVault, VaultCall.footprint, pauseVault]
      intros
      simp [*, Vault.agreeOff_iff]
  | resumeVault =>
      simp [execVault, VaultCall.footprint, resumeVault]
      intros
      simp [*, Vault.agreeOff_iff]
  | setSpendingLimit =>
      simp [execVault, VaultCall.footprint, setSpendingLimit]
      intros
      simp [*, Vault.agreeOff_iff]
  | setBurnPercentage =>
      simp [execVault, VaultCall.footprint, setBurnPercentage]
      intros
      simp [*, Vault.agreeOff_iff]
  | archiveVault => simp [execVault, VaultCall.footprint, archiveVault]
  | restoreVault => simp [execVault, VaultCall.footprint, restoreVault]
  | createVaultSnapshot => simp [execVault, VaultCall.footprint, createVaultSnapshot]
  | cancelVault =>
      simp [execVault, VaultCall.footprint, cancelVault]
      intros
      constructor <;> intros <;> simp [*, Vault.agreeOff_iff]
  | mergeVaults => exact mergeVaults_frame

end Frames

end Heirloom
