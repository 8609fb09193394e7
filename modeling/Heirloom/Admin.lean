import Heirloom.Frame

/-!
# Protocol administration

Initialisation, the pause switch, the protocol limits and the admin hand-over.
These calls write the configuration only (`execAdmin_frame`): no vault, no
index and no token moves.
-/

namespace Heirloom

open Transaction

/-- `initialize`. -/
def initializeContract (xlmToken admin : Address) : Contract Unit := do
  require ((← storageGet .tokenAddress).isSome = false ∧ (← storageGet .admin).isSome = false)
    .alreadyInitialized
  require (xlmToken ≠ admin) .invalidAdmin
  requireAuth admin
  storageSet .tokenAddress xlmToken
  storageSet .admin admin
  storageSet .paused false

def pause : Contract Unit := do
  requireAdmin
  storageSet .paused true

def unpause : Contract Unit := do
  requireAdmin
  storageSet .paused false

def setMinCheckInInterval (minInterval : Nat) : Contract Unit := do
  requireAdmin
  require (minInterval ≠ 0) .invalidConfig
  ifSome (← storageGet .maxCheckInInterval) fun max =>
    require (minInterval ≤ max) .invalidConfig
  storageSet .minCheckInInterval minInterval

def setMaxCheckInInterval (maxInterval : Nat) : Contract Unit := do
  requireAdmin
  require (maxInterval ≠ 0) .invalidConfig
  ifSome (← storageGet .minCheckInInterval) fun min =>
    require (min ≤ maxInterval) .invalidConfig
  storageSet .maxCheckInInterval maxInterval

def setMaxTtlSeconds (maxTtl : Nat) : Contract Unit := do
  requireAdmin
  require (maxTtl ≠ 0) .invalidInterval
  storageSet .maxTtlSeconds maxTtl

def setTtlDecayRate (decayRate : Nat) : Contract Unit := do
  requireAdmin
  require (decayRate ≠ 0 ∧ decayRate ≤ 10000) .invalidBps
  storageSet .ttlDecayRate decayRate

def whitelistToken (token : Address) : Contract Unit := do
  requireAdmin
  storageSet (.tokenWhitelist token) true

def removeTokenWhitelist (token : Address) : Contract Unit := do
  requireAdmin
  storageRemove (.tokenWhitelist token)

def registerWrappedToken (wrapped canonical : Address) : Contract Unit := do
  requireAdmin
  require (wrapped ≠ canonical) .invalidAmount
  assertTokenWhitelisted canonical
  storageSet (.wrappedToken wrapped) canonical

def unregisterWrappedToken (wrapped : Address) : Contract Unit := do
  requireAdmin
  storageRemove (.wrappedToken wrapped)

def getProtocolConfig : Contract ProtocolConfig := do
  let minCheckInInterval : Option Nat ← storageGet .minCheckInInterval
  let maxCheckInInterval : Option Nat ← storageGet .maxCheckInInterval
  let maxTtlSeconds : Option Nat ← storageGet .maxTtlSeconds
  let ttlDecayRate : Option Nat ← storageGet .ttlDecayRate
  let requireUtf8Metadata : Option Bool ← storageGet .requireUtf8Metadata
  let maxVaultsPerOwner : Option Nat ← storageGet .maxVaultsPerOwner
  return ⟨minCheckInInterval, maxCheckInInterval, maxTtlSeconds.getD 315360000,
    ttlDecayRate.getD 0, requireUtf8Metadata.getD false, maxVaultsPerOwner.getD 0⟩

def proposeProtocolConfig (config : ProtocolConfig) : Contract Unit := do
  requireAdmin
  require (config.minCheckInInterval ≠ some 0) .invalidInterval
  require (config.maxCheckInInterval ≠ some 0) .invalidInterval
  ifSome config.minCheckInInterval fun min =>
    ifSome config.maxCheckInInterval fun max =>
      require (min ≤ max) .invalidInterval
  require (config.maxTtlSeconds ≠ 0) .invalidInterval
  require (config.ttlDecayRate ≤ 10000) .invalidBps
  storageSet .pendingProtocolConfig config
  storageSet .protocolConfigProposedAt (← timestamp)

def applyProtocolConfig : Contract Unit := do
  requireAdmin
  let config : ProtocolConfig ← fromSome (← storageGet .pendingProtocolConfig)
    (.error .noPendingProtocolConfig)
  let proposedAt : Nat ← fromSome (← storageGet .protocolConfigProposedAt)
    (.error .noPendingProtocolConfig)
  let unlocksAt ← u64 (proposedAt + protocolConfigTimelock)
  require (unlocksAt ≤ (← timestamp)) .protocolConfigTimeLocked
  ifSomeElse config.minCheckInInterval
    (storageSet .minCheckInInterval) (storageRemove .minCheckInInterval)
  ifSomeElse config.maxCheckInInterval
    (storageSet .maxCheckInInterval) (storageRemove .maxCheckInInterval)
  storageSet .maxTtlSeconds config.maxTtlSeconds
  storageSet .ttlDecayRate config.ttlDecayRate
  storageRemove .pendingProtocolConfig
  storageRemove .protocolConfigProposedAt

def proposeNewAdmin (newAdmin : Address) : Contract Unit := do
  requireAdmin
  storageSet .pendingAdmin newAdmin
  storageSet .adminTransferProposedAt (← timestamp)

def acceptAdmin : Contract Unit := do
  let pending : Address ← fromSome (← storageGet .pendingAdmin) (.error .noPendingAdmin)
  requireAuth pending
  let proposedAt : Nat := (← storageGet .adminTransferProposedAt).getD 0
  let unlocksAt ← u64 (proposedAt + adminTransferTimelock)
  require (unlocksAt ≤ (← timestamp)) .adminTransferTimeLocked
  storageSet .admin pending
  storageRemove .pendingAdmin
  storageRemove .adminTransferProposedAt

def setMinCheckinCooldown (cooldownSeconds : Nat) : Contract Unit := do
  requireAdmin
  storageSet .minCheckInCooldown cooldownSeconds

def setOwnerVaultLimit (limit : Nat) : Contract Unit := do
  requireAdmin
  storageSet (.ownerVaultCount currentContractAddress) limit

def setBeneficiaryVaultLimit (limit : Nat) : Contract Unit := do
  requireAdmin
  storageSet .beneficiaryVaultLimit limit

/-- The administrative entry points. -/
inductive AdminCall
  | initializeContract (xlmToken admin : Address)
  | pause
  | unpause
  | setMinCheckInInterval (minInterval : Nat)
  | setMaxCheckInInterval (maxInterval : Nat)
  | setMaxTtlSeconds (maxTtl : Nat)
  | setTtlDecayRate (decayRate : Nat)
  | whitelistToken (token : Address)
  | removeTokenWhitelist (token : Address)
  | registerWrappedToken (wrapped canonical : Address)
  | unregisterWrappedToken (wrapped : Address)
  | proposeProtocolConfig (config : ProtocolConfig)
  | applyProtocolConfig
  | proposeNewAdmin (newAdmin : Address)
  | acceptAdmin
  | setMinCheckinCooldown (cooldownSeconds : Nat)
  | setOwnerVaultLimit (limit : Nat)
  | setBeneficiaryVaultLimit (limit : Nat)

def execAdmin : AdminCall → Contract Unit
  | .initializeContract xlmToken admin => initializeContract xlmToken admin
  | .pause => pause
  | .unpause => unpause
  | .setMinCheckInInterval i => setMinCheckInInterval i
  | .setMaxCheckInInterval i => setMaxCheckInInterval i
  | .setMaxTtlSeconds n => setMaxTtlSeconds n
  | .setTtlDecayRate r => setTtlDecayRate r
  | .whitelistToken t => whitelistToken t
  | .removeTokenWhitelist t => removeTokenWhitelist t
  | .registerWrappedToken w c => registerWrappedToken w c
  | .unregisterWrappedToken w => unregisterWrappedToken w
  | .proposeProtocolConfig c => proposeProtocolConfig c
  | .applyProtocolConfig => applyProtocolConfig
  | .proposeNewAdmin a => proposeNewAdmin a
  | .acceptAdmin => acceptAdmin
  | .setMinCheckinCooldown n => setMinCheckinCooldown n
  | .setOwnerVaultLimit n => setOwnerVaultLimit n
  | .setBeneficiaryVaultLimit n => setBeneficiaryVaultLimit n

/-- Administration writes the configuration and moves no tokens. -/
theorem execAdmin_frame (c : AdminCall) {e : Env} {s : State} :
    wp (execAdmin c) (fun _ t => Frame ⟨[], [], [.config]⟩ s t) e s := by
  cases c with
  | initializeContract => simp [execAdmin, initializeContract]
  | pause => simp [execAdmin, pause]
  | unpause => simp [execAdmin, unpause]
  | setMinCheckInInterval => simp [execAdmin, setMinCheckInInterval]
  | setMaxCheckInInterval => simp [execAdmin, setMaxCheckInInterval]
  | setMaxTtlSeconds => simp [execAdmin, setMaxTtlSeconds]
  | setTtlDecayRate => simp [execAdmin, setTtlDecayRate]
  | whitelistToken => simp [execAdmin, whitelistToken]
  | removeTokenWhitelist => simp [execAdmin, removeTokenWhitelist]
  | registerWrappedToken =>
      simp [execAdmin, registerWrappedToken]
  | unregisterWrappedToken => simp [execAdmin, unregisterWrappedToken]
  | proposeProtocolConfig => simp [execAdmin, proposeProtocolConfig]
  | applyProtocolConfig => simp [execAdmin, applyProtocolConfig]
  | proposeNewAdmin => simp [execAdmin, proposeNewAdmin]
  | acceptAdmin => simp [execAdmin, acceptAdmin]
  | setMinCheckinCooldown => simp [execAdmin, setMinCheckinCooldown]
  | setOwnerVaultLimit => simp [execAdmin, setOwnerVaultLimit]
  | setBeneficiaryVaultLimit => simp [execAdmin, setBeneficiaryVaultLimit]

end Heirloom
