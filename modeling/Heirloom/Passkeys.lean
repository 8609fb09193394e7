import Heirloom.Frame

/-!
# Passkeys, backup codes and recovery

Registration, rotation, delegation, escrow and compromise of passkeys, the
backup codes and the emergency recovery code. Two calls here move a vault's
deadline: using a backup code and recovering with the recovery code.
-/

namespace Heirloom

open Transaction

/-! ## Registered passkeys -/

def rotatePasskey (vaultId : Nat) (caller : Address) (oldPasskeyHash newPasskeyHash : Bytes32) :
    Contract Unit := do
  let vault ← loadLockedByOwner vaultId caller
  require (vault.passkeyHash = some oldPasskeyHash.toList) .invalidPasskey
  saveVault vaultId { vault with passkeyHash := some newPasskeyHash.toList }

def addPasskey (vaultId : Nat) (caller : Address) (passkeyHash : Bytes32) : Contract Unit := do
  let _ ← loadLockedByOwner vaultId caller
  let passkeys : List PasskeyHash := (← storageGet (.vaultPasskeys vaultId)).getD []
  storageSet (.vaultPasskeys vaultId) (passkeys ++ [⟨passkeyHash, ← timestamp, none⟩])

/-- Sets the biometric hash of the first entry of `passkeyHash`. -/
def setBiometric (passkeyHash : Bytes32) (biometric : Option Bytes) :
    List PasskeyHash → List PasskeyHash
  | [] => []
  | p :: ps =>
      if p.hash = passkeyHash then
        { p with biometricHash := biometric } :: ps
      else
        p :: setBiometric passkeyHash biometric ps

/-- The part that binding and unbinding a biometric hash share. -/
def changeBiometric (vaultId : Nat) (caller : Address) (passkeyHash : Bytes32)
    (biometric : Option Bytes) : Contract Unit := do
  let _ ← loadLockedByOwner vaultId caller
  let passkeys : List PasskeyHash := (← storageGet (.vaultPasskeys vaultId)).getD []
  require (∃ p ∈ passkeys, p.hash = passkeyHash) .passkeyNotFound
  storageSet (.vaultPasskeys vaultId) (setBiometric passkeyHash biometric passkeys)

def bindPasskeyBiometric (vaultId : Nat) (caller : Address)
    (passkeyHash biometricHash : Bytes32) : Contract Unit :=
  changeBiometric vaultId caller passkeyHash (some biometricHash.toList)

def unbindPasskeyBiometric (vaultId : Nat) (caller : Address) (passkeyHash : Bytes32) :
    Contract Unit :=
  changeBiometric vaultId caller passkeyHash none

def removePasskey (vaultId : Nat) (caller : Address) (passkeyHash : Bytes32) :
    Contract Unit := do
  let _ ← loadLockedByOwner vaultId caller
  let passkeys : List PasskeyHash ←
    fromSome (← storageGet (.vaultPasskeys vaultId)) (.error .passkeyNotFound)
  require (∃ p ∈ passkeys, p.hash = passkeyHash) .passkeyNotFound
  storageSet (.vaultPasskeys vaultId) (passkeys.filter (·.hash ≠ passkeyHash))

def extendPasskeyExpiry (vaultId : Nat) (caller : Address) (passkeyHash : Bytes32)
    (newExpiry : Nat) : Contract Unit := do
  requireAuth caller
  let vault ← loadVault vaultId
  require (caller = vault.owner) .notOwner
  storageSet (.passkeyExpiry vaultId passkeyHash) newExpiry

def reportPasskeyCompromise (vaultId : Nat) (caller : Address) (passkeyHash : Bytes32) :
    Contract Unit := do
  requireAuth caller
  let vault ← loadVault vaultId
  require (caller = vault.owner) .notOwner
  let compromised : List Bytes32 := (← storageGet (.compromisedPasskeys vaultId)).getD []
  onlyIf (passkeyHash ∉ compromised)
    (storageSet (.compromisedPasskeys vaultId) (compromised ++ [passkeyHash]))

def clearPasskeyCompromise (vaultId : Nat) (caller : Address) (passkeyHash : Bytes32) :
    Contract Unit := do
  requireAuth caller
  let vault ← loadVault vaultId
  require (caller = vault.owner) .notOwner
  let compromised : List Bytes32 := (← storageGet (.compromisedPasskeys vaultId)).getD []
  storageSet (.compromisedPasskeys vaultId) (compromised.filter (· ≠ passkeyHash))

/-! ## Delegation and escrow -/

def delegatePasskey (vaultId : Nat) (caller : Address) (passkeyHash : Bytes32)
    (delegate : Address) (expiresAt : Nat) : Contract Unit := do
  let vault ← loadLockedByOwner vaultId caller
  let passkeys : List PasskeyHash := (← storageGet (.vaultPasskeys vaultId)).getD []
  require (∃ p ∈ passkeys, p.hash = passkeyHash) .passkeyNotFound
  require ((← timestamp) < expiresAt) .invalidInterval
  require (delegate ≠ vault.owner) .invalidBeneficiary
  storageSet (.passkeyDelegation vaultId passkeyHash) ⟨delegate, expiresAt⟩

def revokePasskeyDelegation (vaultId : Nat) (caller : Address) (passkeyHash : Bytes32) :
    Contract Unit := do
  requireAuth caller
  let vault ← loadVault vaultId
  require (caller = vault.owner) .notOwner
  storageRemove (.passkeyDelegation vaultId passkeyHash)

def escrowPasskey (vaultId : Nat) (caller : Address) (passkeyHash : Bytes32)
    (recoveryContact : Address) : Contract Unit := do
  let vault ← loadLockedByOwner vaultId caller
  require (recoveryContact ≠ vault.owner) .invalidBeneficiary
  let passkeys : List PasskeyHash := (← storageGet (.vaultPasskeys vaultId)).getD []
  require (∃ p ∈ passkeys, p.hash = passkeyHash) .passkeyNotFound
  let current : Option PasskeyEscrowRecord ← storageGet (.passkeyEscrow vaultId passkeyHash)
  require (current.isSome = false) .alreadyInEscrow
  storageSet (.passkeyEscrow vaultId passkeyHash) ⟨recoveryContact, ← timestamp⟩

def releaseEscrowPasskey (vaultId : Nat) (caller : Address) (passkeyHash : Bytes32) :
    Contract Unit := do
  requireAuth caller
  let record : PasskeyEscrowRecord ←
    fromSome (← storageGet (.passkeyEscrow vaultId passkeyHash)) (.error .passkeyNotFound)
  require (caller = record.recoveryContact) .notRecoveryContact
  storageRemove (.passkeyEscrow vaultId passkeyHash)

def cancelPasskeyEscrow (vaultId : Nat) (caller : Address) (passkeyHash : Bytes32) :
    Contract Unit := do
  requireAuth caller
  let vault ← loadVault vaultId
  require (caller = vault.owner) .notOwner
  let current : Option PasskeyEscrowRecord ← storageGet (.passkeyEscrow vaultId passkeyHash)
  require (current.isSome = true) .passkeyNotFound
  storageRemove (.passkeyEscrow vaultId passkeyHash)

/-! ## Recovery by contacts -/

/-- Starts a recovery. The caller is not checked and names the contacts himself. -/
def initiatePasskeyRecovery (vaultId : Nat) (newPasskeyHash : Bytes32) (recoveryCode : String)
    (contacts : List Address) (required : Nat) : Contract Unit := do
  require (required ≠ 0 ∧ required ≤ contacts.length) .invalidThreshold
  storageSet (.passkeyRecoveryRequest vaultId)
    ⟨newPasskeyHash, ← timestamp, recoveryCode, [], required⟩
  storageSet (.recoveryContacts vaultId) contacts

/-- Registers the recovered passkey and closes the request. -/
def completePasskeyRecovery (vaultId : Nat) (request : PasskeyRecoveryRequest) :
    Contract Unit := do
  let passkeys : List PasskeyHash := (← storageGet (.vaultPasskeys vaultId)).getD []
  storageSet (.vaultPasskeys vaultId) (passkeys ++ [⟨request.newPasskeyHash, ← timestamp, none⟩])
  storageRemove (.passkeyRecoveryRequest vaultId)

def approvePasskeyRecovery (vaultId : Nat) (caller : Address) : Contract Unit := do
  requireAuth caller
  let contacts : List Address ←
    fromSome (← storageGet (.recoveryContacts vaultId)) (.error .notRecoveryContact)
  require (caller ∈ contacts) .notRecoveryContact
  let request : PasskeyRecoveryRequest ←
    fromSome (← storageGet (.passkeyRecoveryRequest vaultId)) (.error .notRecoveryContact)
  require (caller ∉ request.approvedContacts) .alreadyApproved
  let approved := { request with approvedContacts := request.approvedContacts ++ [caller] }
  if request.requiredContacts ≤ approved.approvedContacts.length then
    completePasskeyRecovery vaultId approved
  else
    storageSet (.passkeyRecoveryRequest vaultId) approved

/-! ## Codes -/

/-- The ten codes generated at `now`. They are computed from public data. -/
def backupCodesAt (vaultId now : Nat) : List BackupCode :=
  (List.range 10).map fun i =>
    let codeNumber := (vaultId * now % 2 ^ 64 + i) % 2 ^ 64
    ⟨"code" ++ toString codeNumber, false⟩

def generateBackupCodes (vaultId : Nat) (caller : Address) : Contract Unit := do
  let _ ← loadLockedByOwner vaultId caller
  storageSet (.backupCodes vaultId) (backupCodesAt vaultId (← timestamp))

/-- Marks the first entry of `code` as used. -/
def markCodeUsed (code : String) : List BackupCode → List BackupCode
  | [] => []
  | c :: cs => if c.code = code then { c with used := true } :: cs else c :: markCodeUsed code cs

def useBackupCode (vaultId : Nat) (code : String) : Contract Unit := do
  let vault ← loadVault vaultId
  require (vault.status = .locked) .alreadyReleased
  let codes : List BackupCode ←
    fromSome (← storageGet (.backupCodes vaultId)) (.error .invalidBackupCode)
  let entry ← fromSome (codes.find? (·.code = code)) (.error .invalidBackupCode)
  require (entry.used = false) .backupCodeAlreadyUsed
  saveVault vaultId (vault.withLastCheckIn (← timestamp))
  storageSet (.backupCodes vaultId) (markCodeUsed code codes)

def generateRecoveryCode (vaultId : Nat) : Contract Bytes := do
  let vault ← loadVault vaultId
  requireAuth vault.owner
  require (vault.status = .locked) .alreadyReleased
  let code ← ask (·.randomBytes)
  let codeHash ← ask (·.sha256 code)
  storageSet (.recoveryCodeHash vaultId) codeHash
  return code

def recoverWithCode (vaultId : Nat) (recoveryCode : Bytes) (newPasskeyProof : Bytes32) :
    Contract Unit := do
  let vault ← loadVault vaultId
  require (vault.status = .locked) .alreadyReleased
  let storedHash : Bytes32 ←
    fromSome (← storageGet (.recoveryCodeHash vaultId)) (.error .recoveryCodeNotSet)
  let providedHash ← ask (·.sha256 recoveryCode)
  require (providedHash = storedHash) .invalidRecoveryCode
  let now ← timestamp
  storageSet (.vaultPasskeys vaultId) [⟨newPasskeyProof, now, none⟩]
  saveVault vaultId
    { vault with passkeyHash := some newPasskeyProof.toList, lastCheckIn := now }
  storageRemove (.recoveryCodeHash vaultId)

/-- The entry points about passkeys and codes. -/
inductive PasskeyCall
  | rotatePasskey (vaultId : Nat) (caller : Address) (oldPasskeyHash newPasskeyHash : Bytes32)
  | addPasskey (vaultId : Nat) (caller : Address) (passkeyHash : Bytes32)
  | bindPasskeyBiometric (vaultId : Nat) (caller : Address)
      (passkeyHash biometricHash : Bytes32)
  | unbindPasskeyBiometric (vaultId : Nat) (caller : Address) (passkeyHash : Bytes32)
  | removePasskey (vaultId : Nat) (caller : Address) (passkeyHash : Bytes32)
  | extendPasskeyExpiry (vaultId : Nat) (caller : Address) (passkeyHash : Bytes32)
      (newExpiry : Nat)
  | reportPasskeyCompromise (vaultId : Nat) (caller : Address) (passkeyHash : Bytes32)
  | clearPasskeyCompromise (vaultId : Nat) (caller : Address) (passkeyHash : Bytes32)
  | delegatePasskey (vaultId : Nat) (caller : Address) (passkeyHash : Bytes32)
      (delegate : Address) (expiresAt : Nat)
  | revokePasskeyDelegation (vaultId : Nat) (caller : Address) (passkeyHash : Bytes32)
  | escrowPasskey (vaultId : Nat) (caller : Address) (passkeyHash : Bytes32)
      (recoveryContact : Address)
  | releaseEscrowPasskey (vaultId : Nat) (caller : Address) (passkeyHash : Bytes32)
  | cancelPasskeyEscrow (vaultId : Nat) (caller : Address) (passkeyHash : Bytes32)
  | initiatePasskeyRecovery (vaultId : Nat) (newPasskeyHash : Bytes32) (recoveryCode : String)
      (contacts : List Address) (required : Nat)
  | approvePasskeyRecovery (vaultId : Nat) (caller : Address)
  | generateBackupCodes (vaultId : Nat) (caller : Address)
  | useBackupCode (vaultId : Nat) (code : String)
  | generateRecoveryCode (vaultId : Nat)
  | recoverWithCode (vaultId : Nat) (recoveryCode : Bytes) (newPasskeyProof : Bytes32)

def execPasskey : PasskeyCall → Contract Unit
  | .rotatePasskey v c h h' => rotatePasskey v c h h'
  | .addPasskey v c h => addPasskey v c h
  | .bindPasskeyBiometric v c h b => bindPasskeyBiometric v c h b
  | .unbindPasskeyBiometric v c h => unbindPasskeyBiometric v c h
  | .removePasskey v c h => removePasskey v c h
  | .extendPasskeyExpiry v c h n => extendPasskeyExpiry v c h n
  | .reportPasskeyCompromise v c h => reportPasskeyCompromise v c h
  | .clearPasskeyCompromise v c h => clearPasskeyCompromise v c h
  | .delegatePasskey v c h d n => delegatePasskey v c h d n
  | .revokePasskeyDelegation v c h => revokePasskeyDelegation v c h
  | .escrowPasskey v c h r => escrowPasskey v c h r
  | .releaseEscrowPasskey v c h => releaseEscrowPasskey v c h
  | .cancelPasskeyEscrow v c h => cancelPasskeyEscrow v c h
  | .initiatePasskeyRecovery v h r cs n => initiatePasskeyRecovery v h r cs n
  | .approvePasskeyRecovery v c => approvePasskeyRecovery v c
  | .generateBackupCodes v c => generateBackupCodes v c
  | .useBackupCode v code => useBackupCode v code
  | .generateRecoveryCode v => do let _ ← generateRecoveryCode v
  | .recoverWithCode v code p => recoverWithCode v code p

/-- What a call about passkeys and codes may write. -/
def PasskeyCall.footprint : PasskeyCall → Footprint
  | .useBackupCode v _ => ⟨[v], [.deadline], [.codes]⟩
  | .generateBackupCodes v _ => ⟨[v], [], [.codes]⟩
  | .recoverWithCode v _ _ => ⟨[v], [.deadline, .passkey], [.keyring, .passkeys]⟩
  | .rotatePasskey v _ _ _ => ⟨[v], [.passkey], []⟩
  | .addPasskey v _ _ | .bindPasskeyBiometric v _ _ _ | .unbindPasskeyBiometric v _ _
  | .removePasskey v _ _ => ⟨[v], [], [.keyring]⟩
  | .initiatePasskeyRecovery v _ _ _ _ => ⟨[v], [], [.recovery]⟩
  | .approvePasskeyRecovery v _ => ⟨[v], [], [.keyring, .recovery]⟩
  | .extendPasskeyExpiry v _ _ _ | .reportPasskeyCompromise v _ _ | .clearPasskeyCompromise v _ _
  | .delegatePasskey v _ _ _ _ | .revokePasskeyDelegation v _ _ | .escrowPasskey v _ _ _
  | .releaseEscrowPasskey v _ _ | .cancelPasskeyEscrow v _ _
  | .generateRecoveryCode v => ⟨[v], [], [.passkeys]⟩

theorem execPasskey_frame (c : PasskeyCall) {e : Env} {s : State} :
    wp (execPasskey c) (fun _ t => Frame c.footprint s t) e s := by
  cases c with
  | rotatePasskey =>
      simp [execPasskey, PasskeyCall.footprint, rotatePasskey]
      intros
      simp [*, Vault.agreeOff_iff]
  | addPasskey => simp [execPasskey, PasskeyCall.footprint, addPasskey]
  | bindPasskeyBiometric =>
      simp [execPasskey, PasskeyCall.footprint, bindPasskeyBiometric, changeBiometric]
  | unbindPasskeyBiometric =>
      simp [execPasskey, PasskeyCall.footprint, unbindPasskeyBiometric, changeBiometric]
  | removePasskey => simp [execPasskey, PasskeyCall.footprint, removePasskey]
  | extendPasskeyExpiry => simp [execPasskey, PasskeyCall.footprint, extendPasskeyExpiry]
  | reportPasskeyCompromise => simp [execPasskey, PasskeyCall.footprint, reportPasskeyCompromise]
  | clearPasskeyCompromise => simp [execPasskey, PasskeyCall.footprint, clearPasskeyCompromise]
  | delegatePasskey => simp [execPasskey, PasskeyCall.footprint, delegatePasskey]
  | revokePasskeyDelegation => simp [execPasskey, PasskeyCall.footprint, revokePasskeyDelegation]
  | escrowPasskey => simp [execPasskey, PasskeyCall.footprint, escrowPasskey]
  | releaseEscrowPasskey => simp [execPasskey, PasskeyCall.footprint, releaseEscrowPasskey]
  | cancelPasskeyEscrow => simp [execPasskey, PasskeyCall.footprint, cancelPasskeyEscrow]
  | initiatePasskeyRecovery => simp [execPasskey, PasskeyCall.footprint, initiatePasskeyRecovery]
  | approvePasskeyRecovery =>
      simp [execPasskey, PasskeyCall.footprint, approvePasskeyRecovery, completePasskeyRecovery]
  | generateBackupCodes => simp [execPasskey, PasskeyCall.footprint, generateBackupCodes]
  | useBackupCode =>
      simp [execPasskey, PasskeyCall.footprint, useBackupCode]
      intros
      simp [*, Vault.agreeOff_iff]
  | generateRecoveryCode => simp [execPasskey, PasskeyCall.footprint, generateRecoveryCode]
  | recoverWithCode =>
      simp [execPasskey, PasskeyCall.footprint, recoverWithCode]
      intros
      simp [*, Vault.agreeOff_iff]

end Heirloom
