import Heirloom.Frame

/-!
# Check-ins and time to live

A vault's deadline is `lastCheckIn + checkInInterval`. This module holds the
entry points that move it: check-ins of every kind, interval changes, TTL
decay, lending and borrowing of TTL, hibernation and the recovery extension.
-/

namespace Heirloom

open Transaction

/-! ## Who may check in, and with which passkey -/

def isCheckInDelegate (vaultId : Nat) (addr : Address) : Contract Bool := do
  let delegates : List Address := (← storageGet (.checkInDelegates vaultId)).getD []
  return decide (addr ∈ delegates)

def isValidPasskeyDelegate (vaultId : Nat) (passkeyHash : Bytes32) (addr : Address) :
    Contract Bool := do
  let delegation : Option PasskeyDelegation ←
    storageGet (.passkeyDelegation vaultId passkeyHash)
  let now ← timestamp
  return delegation.any fun d => decide (d.delegate = addr ∧ now < d.expiresAt)

/-- `passkeyHash` is registered for the vault; if nothing is registered, any hash is. -/
def PasskeyRegistered (passkeys : List PasskeyHash) (primary : Option Bytes)
    (passkeyHash : Bytes32) : Prop :=
  if passkeys ≠ [] then
    ∃ p ∈ passkeys, p.hash = passkeyHash
  else
    ∀ bytes, primary = some bytes → bytes = passkeyHash.toList

instance (passkeys : List PasskeyHash) (primary : Option Bytes) (passkeyHash : Bytes32) :
    Decidable (PasskeyRegistered passkeys primary passkeyHash) :=
  match passkeys, primary with
  | [], none => .isTrue (by simp [PasskeyRegistered])
  | [], some bytes =>
      decidable_of_iff (bytes = passkeyHash.toList) (by simp [PasskeyRegistered])
  | p :: ps, _ =>
      decidable_of_iff (∃ q ∈ p :: ps, q.hash = passkeyHash) (by simp [PasskeyRegistered])

def validatePasskeyForCheckin (vaultId : Nat) (vault : Vault) (passkeyHash : Bytes32)
    (now : Nat) : Contract Unit := do
  let passkeys : List PasskeyHash := (← storageGet (.vaultPasskeys vaultId)).getD []
  require (PasskeyRegistered passkeys vault.passkeyHash passkeyHash) .invalidPasskey
  let compromised : List Bytes32 := (← storageGet (.compromisedPasskeys vaultId)).getD []
  require (passkeyHash ∉ compromised) .passkeyCompromised
  let escrow : Option PasskeyEscrowRecord ← storageGet (.passkeyEscrow vaultId passkeyHash)
  require (escrow.isSome = false) .passkeyInEscrow
  ifSome (← storageGet (.passkeyExpiry vaultId passkeyHash)) fun (expiry : Nat) =>
    require (now ≤ expiry) .passkeyExpired

/-! ## Bookkeeping of a check-in -/

/-- Appends to the ring of the last 50 check-ins. -/
def recordCheckInHistory (vaultId now : Nat) : Contract Unit := do
  let len : Nat := (← storageGet (.checkInHistoryLen vaultId)).getD 0
  let head : Nat := (← storageGet (.checkInHistoryHead vaultId)).getD 0
  if len < 50 then do
    storageSet (.checkInEntry vaultId len) ⟨now⟩
    storageSet (.checkInHistoryLen vaultId) (len + 1)
    storageSet (.checkInHistoryHead vaultId) head
  else do
    storageSet (.checkInEntry vaultId head) ⟨now⟩
    storageSet (.checkInHistoryLen vaultId) len
    storageSet (.checkInHistoryHead vaultId) ((head + 1) % 50)

/-- The streak after a check-in at `now`. -/
def CheckInStreak.next (streak : CheckInStreak) (interval now : Nat) : CheckInStreak :=
  let onTime := streak.lastTimestamp = 0 ∨ now ≤ saturatingAdd64 streak.lastTimestamp interval
  let current := if onTime then min (streak.current + 1) u32Max else 1
  ⟨current, max current streak.best, now⟩

def updateCheckInStreak (vaultId : Nat) (vault : Vault) (now : Nat) : Contract Unit := do
  let streak : CheckInStreak := (← storageGet (.checkInStreak vaultId)).getD ⟨0, 0, 0⟩
  storageSet (.checkInStreak vaultId) (streak.next vault.checkInInterval now)

/-- The entry of a rotation schedule that is in force at `now`: the latest that
is effective, the first of several with the same time. -/
def effectiveRotation (now : Nat) (schedule : List BeneficiaryRotationEntry) :
    Option BeneficiaryRotationEntry :=
  schedule.foldl (fun applied entry =>
    if entry.effectiveTimestamp ≤ now ∧
        (∀ a, applied = some a → a.effectiveTimestamp < entry.effectiveTimestamp) then
      some entry
    else applied) none

/-- The heirs after the scheduled rotation. -/
def rotatedBeneficiaries (now : Nat) (schedule : Option (List BeneficiaryRotationEntry))
    (beneficiaries : List BeneficiaryEntry) : List BeneficiaryEntry :=
  match schedule.bind (effectiveRotation now) with
  | some rotation =>
      if rotation.newBeneficiaries ≠ [] then rotation.newBeneficiaries else beneficiaries
  | none => beneficiaries

def applyRotation (vaultId now : Nat) (beneficiaries : List BeneficiaryEntry) :
    Contract (List BeneficiaryEntry) := do
  let schedule : Option (List BeneficiaryRotationEntry) ←
    storageGet (.beneficiaryRotationSchedule vaultId)
  return rotatedBeneficiaries now schedule beneficiaries

/-- The penalty of a late check-in is paid out of the vault; the result is the
balance that remains. -/
def payInactivityPenalty (vault : Vault) (originalLastCheckIn now : Nat) : Contract Int :=
  ifSomeElse vault.inactivityPenaltyBps
    (fun penaltyBps =>
      ifSomeElse vault.penaltyRecipient
        (fun recipient => do
          let missed := (← divU (now - originalLastCheckIn) vault.checkInInterval) - 1
          if 0 < missed ∧ 0 < vault.balance then do
            let product ← i128 (vault.balance * penaltyBps)
            let penaltyPer := product.tdiv 10000
            let penalty ← i128 (penaltyPer * missed)
            let totalPenalty := min penalty vault.balance
            if 0 < totalPenalty then do
              transfer vault.tokenAddress currentContractAddress recipient totalPenalty
              i128 (vault.balance - totalPenalty)
            else
              pure vault.balance
          else
            pure vault.balance)
        (pure vault.balance))
    (pure vault.balance)

/-- The deadline a check-in at `now` sets must not pass the protocol's maximum. -/
def assertMaxTtl (now interval : Nat) : Contract Unit := do
  let maxTtl ← getMaxTtlSeconds
  let deadline ← u64 (now + interval)
  let maxDeadline ← u64 (now + maxTtl)
  require (deadline ≤ maxDeadline) .maxTtlExceeded

/-- The owner index is written back unchanged. -/
def touchOwnerVaultIds (owner : Address) : Contract Unit := do
  storageSet (.ownerVaults owner) (← loadOwnerVaultIds owner)

/-! ## Check-ins -/

/-- A check-in delegate spends the nonce it was given next. -/
def spendDelegateNonce (vaultId : Nat) (caller : Address) (nonce : Nat) : Contract Unit := do
  let expected : Nat := (← storageGet (.delegateNonce vaultId caller)).getD 0
  require (nonce = expected) .invalidNonce
  storageSet (.delegateNonce vaultId caller) (← u64 (expected + 1))

/-- The minimum time between two check-ins has passed. -/
def assertCooldown (vaultId now : Nat) : Contract Unit := do
  let cooldown : Nat := (← storageGet .minCheckInCooldown).getD defaultMinCheckinCooldown
  onlyIf (0 < cooldown) do
    ifSome (← storageGet (.lastCheckInTime vaultId)) fun (last : Nat) => do
      let next ← u64 (last + cooldown)
      require (next ≤ now) .invalidInterval

/-- A check-in up to the check of its new deadline: the record that is to be saved. -/
def prepareCheckIn (vaultId : Nat) (caller : Address) (passkeyHash : Bytes32) (nonce : Nat) :
    Contract Vault := do
  require ((← loadPaused) = false) .paused
  requireAuth caller
  let vault ← loadVault vaultId
  require (vault.isPaused = false) .paused
  let listed ← isCheckInDelegate vaultId caller
  let isDelegate := decide (caller ≠ vault.owner) && listed
  let passkeyHolder ← isValidPasskeyDelegate vaultId passkeyHash caller
  require (caller = vault.owner ∨ isDelegate = true ∨ passkeyHolder = true) .notOwner
  onlyIf (isDelegate = true) (spendDelegateNonce vaultId caller nonce)
  require (vault.status = .locked) .alreadyReleased
  let now ← timestamp
  assertCooldown vaultId now
  validatePasskeyForCheckin vaultId vault passkeyHash now
  let beneficiaries ← applyRotation vaultId now vault.beneficiaries
  let newBalance ← payInactivityPenalty vault vault.lastCheckIn now
  return ((vault.withLastCheckIn now).withBeneficiaries beneficiaries).withBalance newBalance

def checkIn (vaultId : Nat) (caller : Address) (passkeyHash : Bytes32) (nonce : Nat) :
    Contract Unit := do
  let checkedIn ← prepareCheckIn vaultId caller passkeyHash nonce
  let now ← timestamp
  assertMaxTtl now checkedIn.checkInInterval
  saveVault vaultId checkedIn
  touchOwnerVaultIds checkedIn.owner
  storageSet (.lastCheckInTime vaultId) now
  recordCheckInHistory vaultId now
  updateCheckInStreak vaultId checkedIn now

/-- `check_in` with nonce 0; the location only goes to a log. -/
def checkInWithGeo (vaultId : Nat) (caller : Address) (passkeyHash : Bytes32) :
    Contract Unit :=
  checkIn vaultId caller passkeyHash 0

def validateBatchCheckIn (caller : Address) (vaultId : Nat) : Contract Unit := do
  let vault ← loadVault vaultId
  require (vault.isPaused = false) .paused
  require (caller = vault.owner) .notOwner
  require (vault.status = .locked) .alreadyReleased

def applyBatchCheckIn (now vaultId : Nat) : Contract Unit := do
  let vault ← loadVault vaultId
  let beneficiaries ← applyRotation vaultId now vault.beneficiaries
  saveVault vaultId ((vault.withLastCheckIn now).withBeneficiaries beneficiaries)

def batchCheckIn (vaultIds : List Nat) (caller : Address) : Contract Unit := do
  require ((← loadPaused) = false) .paused
  requireAuth caller
  forEach vaultIds (validateBatchCheckIn caller)
  let now ← timestamp
  forEach vaultIds (applyBatchCheckIn now)

def validateBatchCheckInV2 (caller : Address) (passkeyHash : Bytes32) (now vaultId : Nat) :
    Contract Unit := do
  let vault ← loadVault vaultId
  require (vault.isPaused = false) .paused
  let listed ← isCheckInDelegate vaultId caller
  require (caller = vault.owner ∨ listed = true) .notOwner
  require (vault.status = .locked) .alreadyReleased
  validatePasskeyForCheckin vaultId vault passkeyHash now
  assertMaxTtl now vault.checkInInterval

def applyBatchCheckInV2 (now vaultId : Nat) : Contract Unit := do
  let vault ← loadVault vaultId
  let checkedIn := vault.withLastCheckIn now
  saveVault vaultId checkedIn
  recordCheckInHistory vaultId now
  updateCheckInStreak vaultId checkedIn now

def batchCheckInV2 (vaultIds : List Nat) (caller : Address) (passkeyHash : Bytes32) :
    Contract Unit := do
  require ((← loadPaused) = false) .paused
  requireAuth caller
  let now ← timestamp
  forEach vaultIds (validateBatchCheckInV2 caller passkeyHash now)
  forEach vaultIds (applyBatchCheckInV2 now)

/-- The eight bytes of a `u64`, least significant first. -/
def toLeBytes (n : Nat) : Bytes := (List.range 8).map fun i => UInt8.ofNat (n / 256 ^ i)

def leadingZeroBits : Bytes → Nat
  | [] => 0
  | b :: bs => if b = 0 then 8 + leadingZeroBits bs else 7 - b.toNat.log2

def verifyPow (vaultId lastCheckIn nonce difficulty : Nat) : Contract Bool := do
  let input := toLeBytes vaultId ++ toLeBytes lastCheckIn ++ toLeBytes nonce
  let hash ← ask (·.sha256 input)
  return decide (difficulty = 0) || decide (difficulty ≤ leadingZeroBits hash.toList)

def checkInWithPow (vaultId : Nat) (caller : Address) (passkeyHash : Bytes32)
    (nonce difficulty : Nat) : Contract Unit := do
  require ((← loadPaused) = false) .paused
  requireAuth caller
  let vault ← loadVault vaultId
  require (vault.isPaused = false) .paused
  let listed ← isCheckInDelegate vaultId caller
  require (caller = vault.owner ∨ listed = true) .notOwner
  require (vault.status = .locked) .alreadyReleased
  let now ← timestamp
  validatePasskeyForCheckin vaultId vault passkeyHash now
  require ((← verifyPow vaultId vault.lastCheckIn nonce (min difficulty 20)) = true)
    .invalidPasskey
  assertMaxTtl now vault.checkInInterval
  let checkedIn := vault.withLastCheckIn now
  saveVault vaultId checkedIn
  touchOwnerVaultIds vault.owner
  recordCheckInHistory vaultId now
  updateCheckInStreak vaultId checkedIn now

def biometricCheckIn (vaultId : Nat) (caller : Address) (passkeyHash biometricHash : Bytes32) :
    Contract Unit := do
  require ((← loadPaused) = false) .paused
  requireAuth caller
  let vault ← loadVault vaultId
  require (vault.isPaused = false) .paused
  let listed ← isCheckInDelegate vaultId caller
  require (caller = vault.owner ∨ listed = true) .notOwner
  require (vault.status = .locked) .alreadyReleased
  let now ← timestamp
  validatePasskeyForCheckin vaultId vault passkeyHash now
  let passkeys : List PasskeyHash := (← storageGet (.vaultPasskeys vaultId)).getD []
  let passkey ← fromSome (passkeys.find? (·.hash = passkeyHash)) (.error .passkeyNotFound)
  require (passkey.biometricHash = some biometricHash.toList) .invalidPasskey
  saveVault vaultId (vault.withLastCheckIn now)

def addCheckInDelegate (vaultId : Nat) (caller delegate : Address) : Contract Unit := do
  let _ ← loadLockedByOwner vaultId caller
  let delegates : List Address := (← storageGet (.checkInDelegates vaultId)).getD []
  require (delegate ∉ delegates) .invalidBeneficiary
  storageSet (.checkInDelegates vaultId) (delegates ++ [delegate])

def removeCheckInDelegate (vaultId : Nat) (caller delegate : Address) : Contract Unit := do
  requireAuth caller
  let vault ← loadVault vaultId
  require (caller = vault.owner) .notOwner
  let delegates : List Address := (← storageGet (.checkInDelegates vaultId)).getD []
  require (delegate ∈ delegates) .passkeyNotFound
  storageSet (.checkInDelegates vaultId) (delegates.filter (· ≠ delegate))

/-! ## Time to live -/

/-- The time left before the deadline; `none` if there is no vault or no time left. -/
def getTtlRemaining (vaultId : Nat) : Contract (Option Nat) := do
  ifSomeElse (← tryLoadVault vaultId)
    (fun vault => do
      let deadline ← u64 (vault.lastCheckIn + vault.checkInInterval)
      let now ← timestamp
      return if deadline ≤ now then none else some (deadline - now))
    (pure none)

/-- What a query of several vaults reports about one of them. -/
def Vault.statusSummary (vaultId : Nat) (vault : Vault) (now : Nat) : VaultStatusSummary :=
  let deadline := saturatingAdd64 vault.lastCheckIn vault.checkInInterval
  ⟨vaultId, vault.status, vault.balance, vault.lastCheckIn,
    decide (deadline < now ∧ vault.status = .locked)⟩

/-- The summaries of those of the vaults that exist. -/
def getVaultBatchStatus (vaultIds : List Nat) : Contract (List VaultStatusSummary) := do
  let now ← timestamp
  read fun s => vaultIds.filterMap fun vaultId =>
    (s.vault vaultId).map fun vault => vault.statusSummary vaultId now

/-- The time that decay leaves of `remaining`. -/
def decayedTtl (remaining decayRate : Nat) : Contract Nat := do
  let decayed ← u64 (remaining * (← subU 10000 decayRate))
  return decayed / 10000

/-- Shortens the remaining time of a vault whose owner has been silent for 30
days. Anyone may call it. -/
def applyTtlDecay (vaultId : Nat) : Contract Nat := do
  let vault ← loadVault vaultId
  require (vault.status = .locked) .alreadyReleased
  let decayRate ← getTtlDecayRate
  let now ← timestamp
  if decayRate = 0 then do
    return (← getTtlRemaining vaultId).getD 0
  else do
    let silentUntil ← u64 (vault.lastCheckIn + thirtyDays)
    if now < silentUntil then do
      return (← getTtlRemaining vaultId).getD 0
    else do
      let currentDeadline ← u64 (vault.lastCheckIn + vault.checkInInterval)
      let remaining := currentDeadline - now
      let decayed ← decayedTtl remaining decayRate
      let newDeadline ← u64 (now + decayed)
      let newLastCheckIn ← subU newDeadline vault.checkInInterval
      saveVault vaultId (vault.withLastCheckIn newLastCheckIn)
      return decayed

def validateSync (caller : Address) (vaultId : Nat) : Contract Unit := do
  let vault ← loadVault vaultId
  require (caller = vault.owner) .notOwner
  require (vault.status = .locked) .alreadyReleased
  assertMaxTtl (← timestamp) vault.checkInInterval

def applySync (now vaultId : Nat) : Contract Unit := do
  let vault ← loadVault vaultId
  saveVault vaultId (vault.withLastCheckIn now)

def syncVaultTtls (vaultIds : List Nat) (caller : Address) : Contract Unit := do
  require ((← loadPaused) = false) .paused
  requireAuth caller
  forEach vaultIds (validateSync caller)
  let now ← timestamp
  forEach vaultIds (applySync now)

def updateCheckInInterval (vaultId newInterval : Nat) : Contract Unit := do
  require ((← loadPaused) = false) .paused
  require (newInterval ≠ 0) .invalidInterval
  assertIntervalInBounds newInterval
  let vault ← loadVault vaultId
  requireAuth vault.owner
  require (vault.status = .locked) .alreadyReleased
  saveVault vaultId ((vault.withCheckInInterval newInterval).withLastCheckIn (← timestamp))

def borrowTtl (borrowerVaultId lenderVaultId : Nat) (caller : Address) (borrowSeconds : Nat) :
    Contract Unit := do
  require ((← loadPaused) = false) .paused
  requireAuth caller
  require (borrowSeconds ≠ 0 ∧ borrowerVaultId ≠ lenderVaultId) .invalidAmount
  let borrower ← loadVault borrowerVaultId
  require (caller = borrower.owner) .notOwner
  require (borrower.status = .locked) .alreadyReleased
  let lender ← loadVault lenderVaultId
  require (lender.status = .locked) .alreadyReleased
  let now ← timestamp
  let lenderDeadline ← u64 (lender.lastCheckIn + lender.checkInInterval)
  require (borrowSeconds < lenderDeadline - now) .insufficientBalance
  storageSet (.ttlBorrow borrowerVaultId)
    ⟨borrowerVaultId, lenderVaultId, borrowSeconds, now, false⟩
  saveVault borrowerVaultId
    (borrower.withLastCheckIn (saturatingAdd64 borrower.lastCheckIn borrowSeconds))
  saveVault lenderVaultId (lender.withLastCheckIn (lender.lastCheckIn - borrowSeconds))

def repayTtlBorrow (borrowerVaultId : Nat) (caller : Address) : Contract Unit := do
  requireAuth caller
  let borrower ← loadVault borrowerVaultId
  require (caller = borrower.owner) .notOwner
  let record : TtlBorrowRecord ← fromSome (← storageGet (.ttlBorrow borrowerVaultId))
    (.error .ttlBorrowNotFound)
  require (record.repaid = false) .ttlBorrowAlreadyRepaid
  let lender ← loadVault record.lenderVaultId
  saveVault record.lenderVaultId
    (lender.withLastCheckIn (saturatingAdd64 lender.lastCheckIn record.borrowedSeconds))
  storageSet (.ttlBorrow borrowerVaultId) { record with repaid := true }

def accelerateTtlDecay (vaultId : Nat) (caller : Address) (accelerateBySeconds : Nat) :
    Contract Unit := do
  require ((← loadPaused) = false) .paused
  requireAuth caller
  require (accelerateBySeconds ≠ 0 ∧ accelerateBySeconds ≤ maxAccelerateSeconds) .invalidAmount
  let vault ← loadVault vaultId
  require (caller = vault.owner) .notOwner
  require (vault.status = .locked) .alreadyReleased
  let now ← timestamp
  let currentDeadline ← u64 (vault.lastCheckIn + vault.checkInInterval)
  require (accelerateBySeconds < currentDeadline - now) .insufficientTtlToAccelerate
  saveVault vaultId (vault.withLastCheckIn (vault.lastCheckIn - accelerateBySeconds))

def enterHibernation (vaultId : Nat) (caller : Address) (durationSeconds : Nat) :
    Contract Unit := do
  requireAuth caller
  require (durationSeconds ≠ 0) .invalidInterval
  let vault ← loadLockedByOwner vaultId caller
  let current : Option HibernationEntry ← storageGet (.hibernation vaultId)
  require (current.isSome = false) .alreadyHibernating
  let now ← timestamp
  -- the storage rent is extended for this long
  let _ ← u64 (vault.checkInInterval + durationSeconds)
  storageSet (.hibernation vaultId) ⟨now, durationSeconds⟩

def exitHibernation (vaultId : Nat) (caller : Address) : Contract Unit := do
  let vault ← loadLockedByOwner vaultId caller
  let entry : HibernationEntry ← fromSome (← storageGet (.hibernation vaultId))
    (.error .notHibernating)
  let now ← timestamp
  let elapsed := min (now - entry.startedAt) entry.durationSeconds
  storageRemove (.hibernation vaultId)
  saveVault vaultId (vault.withLastCheckIn (saturatingAdd64 vault.lastCheckIn elapsed))

/-- Announces a recovery contact. Only an event is published: nothing is stored. -/
def setRecoveryContact (vaultId : Nat) (caller _contact : Address) : Contract Unit := do
  let _ ← loadLockedByOwner vaultId caller

/-- Restarts the countdown. Any caller may ask for it. -/
def requestRecoveryExtension (vaultId : Nat) (caller : Address) : Contract Unit := do
  requireAuth caller
  let vault ← loadVault vaultId
  require (vault.status = .locked) .alreadyReleased
  saveVault vaultId (vault.withLastCheckIn (← timestamp))

/-- The entry points about check-ins and time to live. -/
inductive CheckInCall
  | checkIn (vaultId : Nat) (caller : Address) (passkeyHash : Bytes32) (nonce : Nat)
  | checkInWithGeo (vaultId : Nat) (caller : Address) (passkeyHash : Bytes32)
  | batchCheckIn (vaultIds : List Nat) (caller : Address)
  | batchCheckInV2 (vaultIds : List Nat) (caller : Address) (passkeyHash : Bytes32)
  | checkInWithPow (vaultId : Nat) (caller : Address) (passkeyHash : Bytes32)
      (nonce difficulty : Nat)
  | biometricCheckIn (vaultId : Nat) (caller : Address) (passkeyHash biometricHash : Bytes32)
  | addCheckInDelegate (vaultId : Nat) (caller delegate : Address)
  | removeCheckInDelegate (vaultId : Nat) (caller delegate : Address)
  | applyTtlDecay (vaultId : Nat)
  | syncVaultTtls (vaultIds : List Nat) (caller : Address)
  | updateCheckInInterval (vaultId newInterval : Nat)
  | borrowTtl (borrowerVaultId lenderVaultId : Nat) (caller : Address) (borrowSeconds : Nat)
  | repayTtlBorrow (borrowerVaultId : Nat) (caller : Address)
  | accelerateTtlDecay (vaultId : Nat) (caller : Address) (accelerateBySeconds : Nat)
  | enterHibernation (vaultId : Nat) (caller : Address) (durationSeconds : Nat)
  | exitHibernation (vaultId : Nat) (caller : Address)
  | setRecoveryContact (vaultId : Nat) (caller contact : Address)
  | requestRecoveryExtension (vaultId : Nat) (caller : Address)

def execCheckIn : CheckInCall → Contract Unit
  | .checkIn v c h n => checkIn v c h n
  | .checkInWithGeo v c h => checkInWithGeo v c h
  | .batchCheckIn vs c => batchCheckIn vs c
  | .batchCheckInV2 vs c h => batchCheckInV2 vs c h
  | .checkInWithPow v c h n d => checkInWithPow v c h n d
  | .biometricCheckIn v c h b => biometricCheckIn v c h b
  | .addCheckInDelegate v c d => addCheckInDelegate v c d
  | .removeCheckInDelegate v c d => removeCheckInDelegate v c d
  | .applyTtlDecay v => do let _ ← applyTtlDecay v
  | .syncVaultTtls vs c => syncVaultTtls vs c
  | .updateCheckInInterval v i => updateCheckInInterval v i
  | .borrowTtl b l c n => borrowTtl b l c n
  | .repayTtlBorrow b c => repayTtlBorrow b c
  | .accelerateTtlDecay v c n => accelerateTtlDecay v c n
  | .enterHibernation v c n => enterHibernation v c n
  | .exitHibernation v c => exitHibernation v c
  | .setRecoveryContact v c a => setRecoveryContact v c a
  | .requestRecoveryExtension v c => requestRecoveryExtension v c

/-! ## What the check-ins do -/

/-- The longest interval allowed. -/
def State.maxTtl (s : State) : Nat := (s.get .maxTtlSeconds).getD 315360000

section Specs

variable {e : Env} {s : State} {id : Nat} {v : Vault} {caller : Address} {hash : Bytes32}

@[simp ↓] theorem wp_isCheckInDelegate {Q : Bool → State → Prop} :
    wp (isCheckInDelegate id caller) Q e s ↔
      Q (decide (caller ∈ (s.get (.checkInDelegates id)).getD [])) s := by
  simp [isCheckInDelegate]

@[simp ↓] theorem wp_isValidPasskeyDelegate {Q : Bool → State → Prop} :
    wp (isValidPasskeyDelegate id hash caller) Q e s ↔
      Q ((s.get (.passkeyDelegation id hash)).any fun d =>
        decide (d.delegate = caller ∧ e.timestamp < d.expiresAt)) s := by
  simp [isValidPasskeyDelegate]

@[simp ↓] theorem wp_validatePasskeyForCheckin {now : Nat} {Q : Unit → State → Prop} :
    wp (validatePasskeyForCheckin id v hash now) Q e s ↔
      ∀ u, validatePasskeyForCheckin id v hash now e s = .ok (u, s) → Q u s :=
  Tx.ReadOnly.wp_iff fun _ _ => by simp [validatePasskeyForCheckin]

@[simp ↓] theorem wp_assertCooldown {now : Nat} {Q : Unit → State → Prop} :
    wp (assertCooldown id now) Q e s ↔ ∀ u, assertCooldown id now e s = .ok (u, s) → Q u s :=
  Tx.ReadOnly.wp_iff fun _ _ => by simp [assertCooldown]

@[simp ↓] theorem wp_assertMaxTtl {now interval : Nat} {Q : Unit → State → Prop} :
    wp (assertMaxTtl now interval) Q e s ↔
      ∀ u, assertMaxTtl now interval e s = .ok (u, s) → Q u s :=
  Tx.ReadOnly.wp_iff fun _ _ => by simp [assertMaxTtl]

@[simp ↓] theorem wp_verifyPow {last nonce difficulty : Nat} {Q : Bool → State → Prop} :
    wp (verifyPow id last nonce difficulty) Q e s ↔
      ∀ b, verifyPow id last nonce difficulty e s = .ok (b, s) → Q b s :=
  Tx.ReadOnly.wp_iff fun _ _ => by simp [verifyPow]

@[simp ↓] theorem wp_applyRotation {now : Nat} {l : List BeneficiaryEntry}
    {Q : List BeneficiaryEntry → State → Prop} :
    wp (applyRotation id now l) Q e s ↔
      Q (rotatedBeneficiaries now (s.get (.beneficiaryRotationSchedule id)) l) s := by
  simp [applyRotation]

@[simp ↓] theorem wp_touchOwnerVaultIds {a : Address} {Q : Unit → State → Prop} :
    wp (touchOwnerVaultIds a) Q e s ↔
      Q () (s.put (.ownerVaults a) ((s.get (.ownerVaults a)).getD [])) := by
  simp [touchOwnerVaultIds]

@[simp ↓] theorem wp_updateCheckInStreak {now : Nat} {Q : Unit → State → Prop} :
    wp (updateCheckInStreak id v now) Q e s ↔
      Q () (s.put (.checkInStreak id)
        (((s.get (.checkInStreak id)).getD ⟨0, 0, 0⟩).next v.checkInInterval now)) := by
  simp [updateCheckInStreak]

/-- The penalty of a late check-in never exceeds the balance. -/
theorem payInactivityPenalty_spec {last now : Nat} :
    wp (payInactivityPenalty v last now)
      (fun balance t => ∃ log, t = s.transferAll log ∧ Fair v.tokenAddress log ∧
        balance = v.balance + flow log ∧ (0 ≤ v.balance → 0 ≤ balance)) e s := by
  have hnone : ∃ log, s = s.transferAll log ∧ Fair v.tokenAddress log ∧
      v.balance = v.balance + flow log ∧ (0 ≤ v.balance → 0 ≤ v.balance) :=
    ⟨[], rfl, fair_nil, by simp, id⟩
  simp only [payInactivityPenalty, Tx.wp_ifSomeElse, Tx.wp_bind, wp_divU, Tx.wp_ite, wp_i128,
    wp_transfer, Tx.wp_pure]
  refine ⟨fun _ _ => ⟨fun recipient _ _ => ⟨fun _ _ _ => ⟨fun _ hpay _ => ?_, fun _ => hnone⟩,
    fun _ => hnone⟩, fun _ => hnone⟩, fun _ => hnone⟩
  refine ⟨_, State.pay_eq_transferAll, fair_outgoing hpay.1, ?_, fun _ => ?_⟩
  · simp [Int.sub_eq_add_neg]
  · simp

/-- The caller is the owner, a check-in delegate, or holds a delegated passkey
that has not expired. -/
def MayCheckIn (e : Env) (s : State) (id : Nat) (v : Vault) (caller : Address) : Prop :=
  caller = v.owner ∨ caller ∈ (s.get (.checkInDelegates id)).getD [] ∨
    ∃ hash d, s.get (.passkeyDelegation id hash) = some d ∧ d.delegate = caller ∧
      e.timestamp < d.expiresAt

@[simp ↓] theorem wp_recordCheckInHistory {now : Nat} {Q : Unit → State → Prop} :
    wp (recordCheckInHistory id now) Q e s ↔
      Q () (((s.put (.checkInEntry id (if (s.get (.checkInHistoryLen id)).getD 0 < 50
          then (s.get (.checkInHistoryLen id)).getD 0
          else (s.get (.checkInHistoryHead id)).getD 0)) ⟨now⟩).put (.checkInHistoryLen id)
            (if (s.get (.checkInHistoryLen id)).getD 0 < 50
              then (s.get (.checkInHistoryLen id)).getD 0 + 1
              else (s.get (.checkInHistoryLen id)).getD 0)).put (.checkInHistoryHead id)
                (if (s.get (.checkInHistoryLen id)).getD 0 < 50
                  then (s.get (.checkInHistoryHead id)).getD 0
                  else ((s.get (.checkInHistoryHead id)).getD 0 + 1) % 50)) := by
  simp only [recordCheckInHistory, Tx.wp_bind, wp_storageGet, Tx.wp_ite, wp_storageSet]
  by_cases h : (s.get (.checkInHistoryLen id)).getD 0 < 50
  · rw [if_pos h, if_pos h, if_pos h]
    exact ⟨fun hQ => hQ.1 h, fun hQ => ⟨fun _ => hQ, fun h' => absurd h h'⟩⟩
  · rw [if_neg h, if_neg h, if_neg h]
    exact ⟨fun hQ => hQ.2 h, fun hQ => ⟨fun h' => absurd h' h, fun _ => hQ⟩⟩

/-- The record of a vault after a check-in. -/
def Vault.checkedIn (v : Vault) (now : Nat) (schedule : Option (List BeneficiaryRotationEntry))
    (balance : Int) : Vault :=
  ((v.withLastCheckIn now).withBeneficiaries
    (rotatedBeneficiaries now schedule v.beneficiaries)).withBalance balance

theorem checkIn_spec {nonce : Nat} :
    wp (checkIn id caller hash nonce)
      (fun _ t => ∃ v log, Transacts id v (v.checkedIn e.timestamp
          (s.get (.beneficiaryRotationSchedule id)) (v.balance + flow log)) log s t ∧
        (0 ≤ v.balance → 0 ≤ v.balance + flow log) ∧ e.authorized caller = true ∧
        MayCheckIn e s id v caller ∧ v.status = .locked) e s := by
  simp [checkIn, prepareCheckIn, spendDelegateNonce]
  intro _ hauth v hv _ hmay
  have hmay' : MayCheckIn e s id v caller := by
    obtain howner | ⟨_, hlisted⟩ | hdelegate := hmay
    · exact .inl howner
    · exact .inr (.inl hlisted)
    · obtain ⟨d, hd, hvalid⟩ := Option.any_eq_true _ _ |>.mp hdelegate
      simp only [Bool.and_eq_true, decide_eq_true_eq] at hvalid
      exact .inr (.inr ⟨hash, d, hd, hvalid⟩)
  -- whether or not a nonce was spent, the rest runs on the same vaults and ledger
  refine ⟨fun _ _ _ _ hlocked _ _ _ _ => ?_, fun _ hlocked _ _ _ _ => ?_⟩ <;>
    refine Tx.wp_mono payInactivityPenalty_spec ?_ <;>
    rintro _ _ ⟨log, rfl, hfair, rfl, hnonneg⟩ _ _ <;>
    exact ⟨v, log, .save hv (by simp) rfl hfair rfl, hnonneg, hauth, hmay', hlocked⟩

@[simp ↓] theorem wp_getTtlRemaining {Q : Option Nat → State → Prop} :
    wp (getTtlRemaining id) Q e s ↔ ∀ n, getTtlRemaining id e s = .ok (n, s) → Q n s :=
  Tx.ReadOnly.wp_iff fun _ _ => by simp [getTtlRemaining]

theorem wp_decayedTtl {remaining rate : Nat} {Q : Nat → State → Prop}
    (h : ∀ decayed ≤ remaining, Q decayed s) : wp (decayedTtl remaining rate) Q e s := by
  simp only [decayedTtl, Tx.wp_bind, wp_subU, wp_u64, Tx.wp_pure]
  intro _ _
  refine h _ (Nat.div_le_of_le_mul ?_)
  rw [Nat.mul_comm 10000]
  exact Nat.mul_le_mul_left _ (Nat.sub_le _ _)

/-- The state in which TTL decay shortens the remaining time of `v`. -/
def Decays (e : Env) (s : State) (v : Vault) : Prop :=
  (s.get .ttlDecayRate).getD 0 ≠ 0 ∧ v.lastCheckIn + thirtyDays ≤ e.timestamp

/-- Decay either does nothing or sets the deadline to what remains of it, counted
from now. A deadline that has passed becomes `now`. -/
theorem applyTtlDecay_spec :
    wp (applyTtlDecay id)
      (fun _ t => ∃ v, s.vault id = some v ∧ v.status = .locked ∧
        ((t = s ∧ ¬ Decays e s v) ∨ ∃ last decayed, Decays e s v ∧
          last + v.checkInInterval = e.timestamp + decayed ∧
          decayed ≤ v.deadline - e.timestamp ∧ t = s.put (.vault id) (v.withLastCheckIn last)))
      e s := by
  simp only [applyTtlDecay, Tx.wp_bind, wp_loadVault, wp_require, wp_getTtlDecayRate,
    wp_timestamp, Tx.wp_ite, wp_getTtlRemaining, wp_u64, Tx.wp_pure]
  intro v hv hlocked
  refine ⟨fun hrate _ _ => ⟨v, hv, hlocked, .inl ⟨trivial, fun h => h.1 hrate⟩⟩,
    fun hrate _ => ⟨?_, ?_⟩⟩
  · exact fun hearly _ _ => ⟨v, hv, hlocked, .inl ⟨trivial, fun h => Nat.not_le.mpr hearly h.2⟩⟩
  · intro hlate _
    refine wp_decayedTtl fun decayed hdecayed => ?_
    simp only [wp_subU, wp_saveVault]
    exact fun _ hle => ⟨v, hv, hlocked, .inr ⟨_, decayed, ⟨hrate, Nat.not_lt.mp hlate⟩,
      Nat.sub_add_cancel hle, hdecayed, rfl⟩⟩

end Specs

/-! ## Frames -/

/-- The vault whose time the borrower of `id` has to give back. -/
def State.lenderOf (s : State) (id : Nat) : List Nat :=
  ((s.get (.ttlBorrow id)).map (·.lenderVaultId)).toList

/-- What a call about check-ins and time to live may write. -/
def CheckInCall.footprint (s : State) : CheckInCall → Footprint
  | .checkIn v _ _ _ | .checkInWithGeo v _ _ =>
      ⟨[v], [.deadline, .heirs, .balance, .funds], [.checkIns, .cooldown, .indexes]⟩
  | .batchCheckIn vs _ => ⟨vs, [.deadline, .heirs], []⟩
  | .batchCheckInV2 vs _ _ => ⟨vs, [.deadline], [.checkIns]⟩
  | .checkInWithPow v _ _ _ _ => ⟨[v], [.deadline], [.checkIns, .indexes]⟩
  | .syncVaultTtls vs _ => ⟨vs, [.deadline], []⟩
  | .updateCheckInInterval v _ => ⟨[v], [.deadline, .interval], []⟩
  | .biometricCheckIn v _ _ _ | .applyTtlDecay v
  | .accelerateTtlDecay v _ _ | .requestRecoveryExtension v _ => ⟨[v], [.deadline], []⟩
  | .borrowTtl b l _ _ => ⟨[b, l], [.deadline], [.checkIns]⟩
  | .repayTtlBorrow b _ => ⟨b :: s.lenderOf b, [.deadline], [.checkIns]⟩
  | .enterHibernation v _ _ => ⟨[v], [], [.hibernation]⟩
  | .exitHibernation v _ => ⟨[v], [.deadline], [.hibernation]⟩
  | .addCheckInDelegate v _ _ | .removeCheckInDelegate v _ _
  | .setRecoveryContact v _ _ => ⟨[v], [], [.checkIns]⟩

section Frames

variable {e : Env} {s : State}

theorem checkIn_frame {id : Nat} {caller : Address} {hash : Bytes32} {nonce : Nat} :
    wp (checkIn id caller hash nonce)
      (fun _ t => Frame ⟨[id], [.deadline, .heirs, .balance, .funds],
        [.checkIns, .cooldown, .indexes]⟩ s t) e s := by
  simp [checkIn, prepareCheckIn, spendDelegateNonce]
  intro _ _ v hv _ _
  refine ⟨fun _ _ _ _ hlocked _ _ _ _ => ?_, fun _ hlocked _ _ _ _ => ?_⟩ <;>
    refine Tx.wp_mono payInactivityPenalty_spec ?_ <;>
    rintro _ _ ⟨log, rfl, -⟩ _ _ <;>
    simp [hv, hlocked, Vault.agreeOff_iff]

theorem validateBatchCheckIn_spec {ids : List Nat} {caller : Address} :
    wp (forEach ids (validateBatchCheckIn caller)) (fun _ t => t = s ∧
      ∀ i ∈ ids, ∃ v, s.vault i = some v ∧ caller = v.owner ∧ v.status = .locked) e s := by
  induction ids with
  | nil => simp [forEach]
  | cons i is ih =>
      simp [forEach, validateBatchCheckIn]
      intro v hv _ howner hlocked
      refine Tx.wp_mono ih ?_
      rintro _ _ ⟨rfl, his⟩
      exact ⟨rfl, ⟨v, hv, howner, hlocked⟩, his⟩

theorem batchCheckIn_frame {ids : List Nat} {caller : Address} :
    wp (batchCheckIn ids caller) (fun _ t => Frame ⟨ids, [.deadline, .heirs], []⟩ s t) e s := by
  simp only [batchCheckIn, Tx.wp_bind, wp_loadPaused, wp_require, wp_requireAuth]
  intro _ _
  refine Tx.wp_mono validateBatchCheckIn_spec ?_
  rintro _ t ⟨ht, hlocked⟩
  obtain rfl := ht.symm
  simp only [wp_timestamp]
  refine Frame.forEach (fun _ => id) fun i hi t ht => ?_
  simp [applyBatchCheckIn]
  intro v hv
  obtain ⟨v₀, hv₀, _, hstatus⟩ := hlocked i hi
  obtain ⟨v', hv', hagree⟩ := ht.kept i v₀ hv₀
  obtain rfl : v' = v := by simpa [hv] using hv'.symm
  have hlock : v'.status = .locked := (hagree.status.resolve_right (by simp)).trans hstatus
  exact ht.save hi hv (by simp [Vault.agreeOff_iff, hlock])

theorem batchCheckInV2_frame {ids : List Nat} {caller : Address} {hash : Bytes32} :
    wp (batchCheckInV2 ids caller hash)
      (fun _ t => Frame ⟨ids, [.deadline], [.checkIns]⟩ s t) e s := by
  simp only [batchCheckInV2, Tx.wp_bind, wp_loadPaused, wp_require, wp_requireAuth, wp_timestamp]
  intro _ _
  refine Tx.wp_mono (Tx.ReadOnly.forEach (fun _ _ _ => by simp [validateBatchCheckInV2]) e s) ?_
  rintro _ t ht
  obtain rfl := ht.symm
  refine Frame.forEach (fun _ => id) fun i hi t ht => ?_
  simp [applyBatchCheckInV2, hi]
  intro v hv
  exact ht.save hi hv (by simp [Vault.agreeOff_iff])

theorem syncVaultTtls_frame {ids : List Nat} {caller : Address} :
    wp (syncVaultTtls ids caller) (fun _ t => Frame ⟨ids, [.deadline], []⟩ s t) e s := by
  simp only [syncVaultTtls, Tx.wp_bind, wp_loadPaused, wp_require, wp_requireAuth]
  intro _ _
  refine Tx.wp_mono (Tx.ReadOnly.forEach (fun _ _ _ => by simp [validateSync]) e s) ?_
  rintro _ t ht
  obtain rfl := ht.symm
  simp only [wp_timestamp]
  refine Frame.forEach (fun _ => id) fun i hi t ht => ?_
  simp [applySync]
  intro v hv
  exact ht.save hi hv (by simp [Vault.agreeOff_iff])

theorem execCheckIn_frame (c : CheckInCall) :
    wp (execCheckIn c) (fun _ t => Frame (c.footprint s) s t) e s := by
  cases c with
  | checkIn => exact checkIn_frame
  | checkInWithGeo => exact checkIn_frame
  | batchCheckIn => exact batchCheckIn_frame
  | batchCheckInV2 => exact batchCheckInV2_frame
  | checkInWithPow =>
      simp [execCheckIn, CheckInCall.footprint, checkInWithPow]
      intros
      simp [*, Vault.agreeOff_iff]
  | biometricCheckIn =>
      simp [execCheckIn, CheckInCall.footprint, biometricCheckIn]
      intros
      simp [*, Vault.agreeOff_iff]
  | addCheckInDelegate => simp [execCheckIn, CheckInCall.footprint, addCheckInDelegate]
  | removeCheckInDelegate => simp [execCheckIn, CheckInCall.footprint, removeCheckInDelegate]
  | applyTtlDecay =>
      simp only [execCheckIn, Tx.wp_bind, Tx.wp_pure]
      refine Tx.wp_mono applyTtlDecay_spec ?_
      rintro _ _ ⟨v, hv, -, ⟨rfl, -⟩ | ⟨_, _, -, -, -, rfl⟩⟩
      · exact .refl
      · simp [CheckInCall.footprint, hv, Vault.agreeOff_iff]
  | syncVaultTtls => exact syncVaultTtls_frame
  | updateCheckInInterval =>
      simp [execCheckIn, CheckInCall.footprint, updateCheckInInterval]
      intros
      simp [*, Vault.agreeOff_iff]
  | borrowTtl =>
      simp [execCheckIn, CheckInCall.footprint, borrowTtl]
      intro _ _ _ _ borrower hborrower _ _ lender hlender _ _ _
      refine (Frame.put_vault (by simp) ?_).mpr (by simp [hlender, Vault.agreeOff_iff])
      simp [hborrower, Vault.agreeOff_iff]
  | repayTtlBorrow =>
      simp [execCheckIn, CheckInCall.footprint, repayTtlBorrow, State.lenderOf]
      intros
      simp [*, Vault.agreeOff_iff]
  | accelerateTtlDecay =>
      simp [execCheckIn, CheckInCall.footprint, accelerateTtlDecay]
      intros
      simp [*, Vault.agreeOff_iff]
  | enterHibernation => simp [execCheckIn, CheckInCall.footprint, enterHibernation]
  | exitHibernation =>
      simp [execCheckIn, CheckInCall.footprint, exitHibernation]
      intros
      simp [*, Vault.agreeOff_iff]
  | setRecoveryContact => simp [execCheckIn, CheckInCall.footprint, setRecoveryContact]
  | requestRecoveryExtension =>
      simp [execCheckIn, CheckInCall.footprint, requestRecoveryExtension]
      intros
      simp [*, Vault.agreeOff_iff]

end Frames

end Heirloom
