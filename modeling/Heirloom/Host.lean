import Heirloom.Lib.Transaction
import Heirloom.Lib.Storage
import Heirloom.Lib.Ledger
import Heirloom.Types

/-!
# The contract and its host

The storage keys of the contract with the types of their values, the errors it
returns, and what one call sees of the host: the ledger time, the addresses
that authorised the call, the token contracts and the oracles.

A call runs to completion or fails. A failing call (a returned `ContractError`
or a trap of the host) leaves no effect, which is what the `Transaction` monad
says. Arithmetic is checked: the contract is built with `overflow-checks`, so
an overflow is a trap.
-/

namespace Heirloom

open Transaction TypedStore TokenLedger

/-! ## Errors -/

/-- `ContractError`, without the variants that only other contracts' modules use. -/
inductive ContractError
  | alreadyInitialized | invalidInterval | vaultNotFound | emptyVault | invalidAmount
  | notOwner | alreadyReleased | insufficientBalance | notAdmin | paused | noPendingAdmin
  | invalidBps | notExpiringSoon | intervalTooLow | intervalTooHigh | notExpired
  | invalidBeneficiary | balanceOverflow | vaultExpired | invalidAdmin | notInitialized
  | vestingNotFound | nothingToClaimYet | vestingAlreadyComplete | maxTtlExceeded
  | invalidPasskey | passkeyNotFound | invalidBackupCode | backupCodeAlreadyUsed
  | notBeneficiary | disputeFiled | noScheduledWithdrawals | conditionsNotApproved
  | noPendingOwnershipTransfer | ownershipTransferExpired | ownershipTransferTimeLocked
  | upgradeInvalidHash | depositLimitExceeded | withdrawalNotApproved | notRecoveryContact
  | invalidThreshold | multiSigRequired | notASigner | proposalNotFound | proposalExpired
  | alreadyApproved | proposalNotApproved | metadataVersionNotFound | vaultCapacityExceeded
  | incompatibleVaultToken | proofOfLifeRequired | proofOfLifeExpired | alreadyVoted
  | votingNotEnabled | alreadyHibernating | notHibernating | duplicateVault
  | checkInTooFrequent | vaultFrozen | cliffNotReached | insufficientTtlToAccelerate
  | ttlBorrowNotFound | ttlBorrowAlreadyRepaid | overlappingWithdrawalSchedule
  | conflictingWithdrawalSchedule | dailyWithdrawalLimitExceeded
  | weeklyWithdrawalLimitExceeded | monthlyWithdrawalLimitExceeded
  | withdrawalDestinationNotWhitelisted | withdrawalReversalGracePeriodExpired
  | withdrawalAlreadyReversed | catchUpNotEnabled | bonusNotEnabled | tokenNotWhitelisted
  | notReleased | gracePeriodExpired | nothingToClawback | invalidVestingSchedule
  | invalidNonce | adminCannotOwnVault | adminTransferTimeLocked | alreadyOwner
  | beneficiaryAlreadyRevealed | beneficiaryCapacityExceeded
  | beneficiaryVetoReleaseCondition | commitmentAlreadySet | commitmentNotFound
  | gracePeriodActive | invalidConfig | invalidMetadataEncoding | invalidRecoveryCode
  | invalidWithdrawDestination | invalidZkProof | noPendingProtocolConfig
  | passkeyCompromised | passkeyExpired | protocolConfigTimeLocked | recoveryCodeNotSet
  | vestingAlreadyAccelerated | vestingReversalExpired | vestingReversalNotFound
  | unauthorizedDepositor | vestingStaggerNotFound | invalidPercentage | liquidationExceedsLimit | alreadyInEscrow
  | passkeyInEscrow | snapshotNotFound
  | invalidExternalId | invalidAnchorSystem | anchorAlreadyExists | anchorNotFound
  | invalidStateTransition | invalidSlice | insufficientQuorum | templateNotFound
  | inheritanceCycleDetected | ruleNotFound
  | auctionNotFound | auctionAlreadyExists | auctionEnded | auctionNotEnded
deriving DecidableEq

/-- Why a call has failed. -/
inductive Failure
  /-- The contract returned or panicked with an error of its own. -/
  | error (err : ContractError)
  /-- The host stopped the call: missing authorisation, an `i128` overflow, a division
  by zero, a refused token transfer, a failed `unwrap`. -/
  | trap
  /-- The host stopped the call because unsigned arithmetic left its range. -/
  | overflow
deriving DecidableEq

/-! ## Storage -/

/-- The storage keys (`DataKey`) that modelled functions use. -/
inductive DataKey
  | vault (id : Nat)
  | ownerVaults (owner : Address)
  | beneficiaryVaults (beneficiary : Address)
  | vaultCount
  | vaultDuplicate (owner beneficiary : Address) (interval : Nat)
  | archivedVault (id : Nat)
  | stateTransitionLog (id : Nat)
  | metadataHistory (id : Nat)
  | vaultSnapshot (id timestamp : Nat)
  | vaultSnapshotTimestamps (id : Nat)
  -- protocol configuration
  | tokenAddress
  | admin
  | paused
  | pendingAdmin
  | adminTransferProposedAt
  | minCheckInInterval
  | maxCheckInInterval
  | maxTtlSeconds
  | ttlDecayRate
  | releaseGracePeriodSeconds
  | ownerVaultCount (owner : Address)
  | beneficiaryVaultLimit
  | tokenWhitelist (token : Address)
  | wrappedToken (token : Address)
  | pendingProtocolConfig
  | protocolConfigProposedAt
  | requireUtf8Metadata
  | maxVaultsPerOwner
  | minCheckInCooldown
  -- check-ins and time to live
  | lastCheckInTime (id : Nat)
  | checkInEntry (id slot : Nat)
  | checkInHistoryHead (id : Nat)
  | checkInHistoryLen (id : Nat)
  | checkInStreak (id : Nat)
  | checkInDelegates (id : Nat)
  | delegateNonce (id : Nat) (delegate : Address)
  | hibernation (id : Nat)
  | ttlBorrow (id : Nat)
  -- passkeys and recovery
  | vaultPasskeys (id : Nat)
  | backupCodes (id : Nat)
  | passkeyExpiry (id : Nat) (hash : Bytes32)
  | compromisedPasskeys (id : Nat)
  | passkeyDelegation (id : Nat) (hash : Bytes32)
  | passkeyEscrow (id : Nat) (hash : Bytes32)
  | passkeyRecoveryRequest (id : Nat)
  | recoveryContacts (id : Nat)
  | recoveryCodeHash (id : Nat)
  -- withdrawals
  | withdrawalLimit (id : Nat)
  | withdrawalTracker (id : Nat)
  | withdrawalWhitelist (id : Nat)
  | withdrawalReversal (id withdrawalId : Nat)
  | withdrawalReversalCounter (id : Nat)
  | withdrawalEscrow (id : Nat)
  | withdrawalSchedule (id : Nat)
  | withdrawalApprovalRequest (id : Nat)
  | withdrawalApprovers (id : Nat)
  -- release and heirs
  | releaseAttempted (id : Nat)
  | releaseConditions (id : Nat)
  | beneficiaryStatus (id : Nat)
  | beneficiaryStatusEntry (id : Nat) (beneficiary : Address)
  | beneficiaryReleaseTriggers (id : Nat)
  | beneficiaryTierThreshold (id : Nat) (beneficiary : Address)
  | beneficiaryReleaseConditionVeto (id : Nat)
  | beneficiaryDelegate (id : Nat)
  | beneficiaryDelegationChain (id : Nat)
  | beneficiaryRotationSchedule (id : Nat)
  | conditionalAcceptance (id : Nat)
  | beneficiaryConditionalAcceptance (id : Nat)
  | beneficiaryCommitment (id : Nat)
  | revealedBeneficiary (id : Nat)
  | proofOfLife (id : Nat)
  | releaseVotes (id : Nat)
  | releaseVoteThreshold (id : Nat)
  | clawbackReleaseTs (id : Nat) (beneficiary : Address)
  | pendingOwnership (id : Nat)
  | pendingBeneficiaryUpdate (id : Nat)
  -- vesting
  | vestingSchedule (id index : Nat)
  | vestingScheduleCount (id : Nat)
  | vestingPenalty (id index : Nat)
  | vestingPendingClaim (id index : Nat)
  | milestoneVestingSchedule (id : Nat)
  | vestingCatchUp (id : Nat)
  | vestingBonus (id : Nat)
  | vestingRollover (id : Nat)
  | vestingForfeiture (id : Nat)
  | vestingAcceleration (id : Nat)
  | vestingStagger (id : Nat)
  | beneficiaryVestingSchedule (id : Nat) (beneficiary : Address)
  | tokenStaking (id : Nat)
  | yieldDistributionConfig (id : Nat)
  -- lending
  | tokenLending (id : Nat)
  | tokenCollateral (id : Nat)
  -- multi-signature control
  | multiSigConfig (id : Nat)
  | multiSigProposal (id proposalId : Nat)
  | multiSigProposalCount (id : Nat)
  | openProposals (id : Nat)
deriving DecidableEq

/-- The type of the value stored under a key. -/
@[reducible] def DataKey.Value : DataKey → Type
  | .vault _ => Vault
  | .ownerVaults _ => List Nat
  | .beneficiaryVaults _ => List Nat
  | .vaultCount => Nat
  | .vaultDuplicate _ _ _ => Nat
  | .archivedVault _ => Vault
  | .stateTransitionLog _ => List StateTransitionEntry
  | .metadataHistory _ => List MetadataVersionEntry
  | .vaultSnapshot _ _ => VaultSnapshot
  | .vaultSnapshotTimestamps _ => List Nat
  | .tokenAddress => Address
  | .admin => Address
  | .paused => Bool
  | .pendingAdmin => Address
  | .adminTransferProposedAt => Nat
  | .minCheckInInterval => Nat
  | .maxCheckInInterval => Nat
  | .maxTtlSeconds => Nat
  | .ttlDecayRate => Nat
  | .releaseGracePeriodSeconds => Nat
  | .ownerVaultCount _ => Nat
  | .beneficiaryVaultLimit => Nat
  | .tokenWhitelist _ => Bool
  | .wrappedToken _ => Address
  | .pendingProtocolConfig => ProtocolConfig
  | .protocolConfigProposedAt => Nat
  | .requireUtf8Metadata => Bool
  | .maxVaultsPerOwner => Nat
  | .minCheckInCooldown => Nat
  | .lastCheckInTime _ => Nat
  | .checkInEntry _ _ => CheckInHistoryEntry
  | .checkInHistoryHead _ => Nat
  | .checkInHistoryLen _ => Nat
  | .checkInStreak _ => CheckInStreak
  | .checkInDelegates _ => List Address
  | .delegateNonce _ _ => Nat
  | .hibernation _ => HibernationEntry
  | .ttlBorrow _ => TtlBorrowRecord
  | .vaultPasskeys _ => List PasskeyHash
  | .backupCodes _ => List BackupCode
  | .passkeyExpiry _ _ => Nat
  | .compromisedPasskeys _ => List Bytes32
  | .passkeyDelegation _ _ => PasskeyDelegation
  | .passkeyEscrow _ _ => PasskeyEscrowRecord
  | .passkeyRecoveryRequest _ => PasskeyRecoveryRequest
  | .recoveryContacts _ => List Address
  | .recoveryCodeHash _ => Bytes32
  | .withdrawalLimit _ => WithdrawalLimit
  | .withdrawalTracker _ => WithdrawalTracker
  | .withdrawalWhitelist _ => List WhitelistEntry
  | .withdrawalReversal _ _ => WithdrawalReversal
  | .withdrawalReversalCounter _ => Nat
  | .withdrawalEscrow _ => WithdrawalEscrow
  | .withdrawalSchedule _ => List WithdrawalScheduleEntry
  | .withdrawalApprovalRequest _ => WithdrawalApprovalRequest
  | .withdrawalApprovers _ => List Address
  | .releaseAttempted _ => Bool
  | .releaseConditions _ => List ReleaseCondition
  | .beneficiaryStatus _ => BeneficiaryStatus
  | .beneficiaryStatusEntry _ _ => BeneficiaryStatus
  | .beneficiaryReleaseTriggers _ => List (Address × List ReleaseTrigger)
  | .beneficiaryTierThreshold _ _ => Int
  | .beneficiaryReleaseConditionVeto _ => Bool
  | .beneficiaryDelegate _ => Address
  | .beneficiaryDelegationChain _ => List Address
  | .beneficiaryRotationSchedule _ => List BeneficiaryRotationEntry
  | .conditionalAcceptance _ => ConditionalAcceptanceEntry
  | .beneficiaryConditionalAcceptance _ => BeneficiaryConditionalAcceptance
  | .beneficiaryCommitment _ => BeneficiaryCommitment
  | .revealedBeneficiary _ => Address
  | .proofOfLife _ => ProofOfLifeEntry
  | .releaseVotes _ => List ReleaseVoteEntry
  | .releaseVoteThreshold _ => Nat
  | .clawbackReleaseTs _ _ => Nat
  | .pendingOwnership _ => OwnershipTransferRequest
  | .pendingBeneficiaryUpdate _ => PendingBeneficiaryUpdate
  | .vestingSchedule _ _ => VestingSchedule
  | .vestingScheduleCount _ => Nat
  | .vestingPenalty _ _ => VestingPenaltyConfig
  | .vestingPendingClaim _ _ => VestingPendingClaim
  | .milestoneVestingSchedule _ => MilestoneVestingSchedule
  | .vestingCatchUp _ => VestingCatchUpConfig
  | .vestingBonus _ => VestingBonusConfig
  | .vestingRollover _ => VestingRolloverConfig
  | .vestingForfeiture _ => VestingForfeitureConfig
  | .vestingAcceleration _ => VestingAccelerationConfig
  | .vestingStagger _ => List VestingStaggerEntry
  | .beneficiaryVestingSchedule _ _ => BeneficiaryVestingSchedule
  | .tokenStaking _ => TokenStaking
  | .yieldDistributionConfig _ => YieldDistributionConfig
  | .tokenLending _ => TokenLending
  | .tokenCollateral _ => TokenCollateral
  | .multiSigConfig _ => MultiSigConfig
  | .multiSigProposal _ _ => MultiSigProposal
  | .multiSigProposalCount _ => Nat
  | .openProposals _ => List Nat

/-- The parts of the storage, by the operations that write them. -/
inductive Area
  | vaults | count | indexes | registry | transitions | duplicates | snapshots | config | checkIns
  | cooldown | hibernation | keyring | passkeys | recovery | codes | withdrawals | payouts | heirs
  | delegations | release | transfers | schedules | milestones | vesting | penalties | rollover | staking
  | forfeiture | lending | multisig
deriving DecidableEq

@[reducible] def DataKey.area : DataKey → Area
  | .vault _ => .vaults
  | .vaultCount => .count
  | .ownerVaults _ | .beneficiaryVaults _ => .indexes
  | .archivedVault _ | .metadataHistory _ => .registry
  | .stateTransitionLog _ => .transitions
  | .vaultSnapshot _ _ | .vaultSnapshotTimestamps _ => .snapshots
  | .vaultDuplicate _ _ _ => .duplicates
  | .tokenAddress | .admin | .paused | .pendingAdmin | .adminTransferProposedAt
  | .minCheckInInterval | .maxCheckInInterval | .maxTtlSeconds | .ttlDecayRate
  | .releaseGracePeriodSeconds | .ownerVaultCount _ | .beneficiaryVaultLimit
  | .tokenWhitelist _ | .wrappedToken _ | .pendingProtocolConfig
  | .protocolConfigProposedAt | .requireUtf8Metadata | .maxVaultsPerOwner
  | .minCheckInCooldown => .config
  | .checkInEntry _ _ | .checkInHistoryHead _ | .checkInHistoryLen _
  | .checkInStreak _ | .checkInDelegates _ | .delegateNonce _ _ | .ttlBorrow _ => .checkIns
  | .lastCheckInTime _ => .cooldown
  | .hibernation _ => .hibernation
  | .vaultPasskeys _ => .keyring
  | .passkeyExpiry _ _ | .compromisedPasskeys _ | .passkeyDelegation _ _ | .passkeyEscrow _ _
  | .recoveryCodeHash _ => .passkeys
  | .passkeyRecoveryRequest _ | .recoveryContacts _ => .recovery
  | .backupCodes _ => .codes
  | .withdrawalLimit _ | .withdrawalTracker _ | .withdrawalWhitelist _
  | .withdrawalReversal _ _ | .withdrawalReversalCounter _ | .withdrawalEscrow _
  | .withdrawalApprovalRequest _ | .withdrawalApprovers _ =>
    .withdrawals
  | .withdrawalSchedule _ => .payouts
  | .releaseAttempted _ | .revealedBeneficiary _ => .release
  | .releaseConditions _ | .beneficiaryStatus _
  | .beneficiaryStatusEntry _ _ | .beneficiaryConditionalAcceptance _
  | .beneficiaryReleaseTriggers _ | .beneficiaryTierThreshold _ _
  | .beneficiaryReleaseConditionVeto _
  | .beneficiaryRotationSchedule _ | .conditionalAcceptance _ | .beneficiaryCommitment _
  | .proofOfLife _ | .releaseVotes _ | .releaseVoteThreshold _
  | .clawbackReleaseTs _ _ => .heirs
  | .beneficiaryDelegate _ | .beneficiaryDelegationChain _ => .delegations
  | .pendingOwnership _ | .pendingBeneficiaryUpdate _ => .transfers
  | .vestingForfeiture _ => .forfeiture
  | .vestingSchedule _ _ | .vestingScheduleCount _ => .schedules
  | .milestoneVestingSchedule _ => .milestones
  | .vestingPenalty _ _ => .penalties
  | .vestingPendingClaim _ _ | .vestingCatchUp _ | .vestingBonus _ | .vestingAcceleration _
  | .vestingStagger _ | .beneficiaryVestingSchedule _ _ | .yieldDistributionConfig _ => .vesting
  | .vestingRollover _ => .rollover
  | .tokenStaking _ => .staking
  | .tokenLending _ | .tokenCollateral _ => .lending
  | .multiSigConfig _ | .multiSigProposal _ _ | .multiSigProposalCount _
  | .openProposals _ => .multisig

/-- The vault that a key belongs to, if it belongs to one. -/
@[reducible] def DataKey.vaultId? : DataKey → Option Nat
  | .vault id | .archivedVault id | .stateTransitionLog id | .metadataHistory id
  | .vaultSnapshot id _ | .vaultSnapshotTimestamps id
  | .lastCheckInTime id | .checkInEntry id _ | .checkInHistoryHead id | .checkInHistoryLen id
  | .checkInStreak id | .checkInDelegates id | .delegateNonce id _ | .hibernation id
  | .ttlBorrow id
  | .vaultPasskeys id | .backupCodes id | .passkeyExpiry id _ | .compromisedPasskeys id
  | .passkeyDelegation id _ | .passkeyEscrow id _ | .passkeyRecoveryRequest id
  | .recoveryContacts id | .recoveryCodeHash id
  | .withdrawalLimit id | .withdrawalTracker id | .withdrawalWhitelist id
  | .withdrawalReversal id _ | .withdrawalReversalCounter id | .withdrawalEscrow id
  | .withdrawalSchedule id | .withdrawalApprovalRequest id | .withdrawalApprovers id
  | .releaseAttempted id | .releaseConditions id | .beneficiaryStatus id
  | .beneficiaryStatusEntry id _ | .beneficiaryReleaseTriggers id
  | .beneficiaryTierThreshold id _ | .beneficiaryReleaseConditionVeto id
  | .beneficiaryDelegate id | .beneficiaryDelegationChain id
  | .beneficiaryRotationSchedule id | .conditionalAcceptance id
  | .beneficiaryConditionalAcceptance id | .beneficiaryCommitment id | .revealedBeneficiary id
  | .proofOfLife id | .releaseVotes id | .releaseVoteThreshold id | .clawbackReleaseTs id _
  | .pendingOwnership id | .pendingBeneficiaryUpdate id
  | .vestingSchedule id _ | .vestingScheduleCount id | .vestingPenalty id _
  | .vestingPendingClaim id _ | .milestoneVestingSchedule id | .vestingCatchUp id
  | .vestingBonus id | .vestingRollover id | .vestingForfeiture id | .vestingAcceleration id
  | .vestingStagger id | .beneficiaryVestingSchedule id _ | .tokenStaking id
  | .yieldDistributionConfig id
  | .tokenLending id | .tokenCollateral id
  | .multiSigConfig id | .multiSigProposal id _ | .multiSigProposalCount id
  | .openProposals id => some id
  | .ownerVaults _ | .beneficiaryVaults _ | .vaultCount | .vaultDuplicate _ _ _
  | .tokenAddress | .admin | .paused | .pendingAdmin | .adminTransferProposedAt
  | .minCheckInInterval | .maxCheckInInterval | .maxTtlSeconds | .ttlDecayRate
  | .releaseGracePeriodSeconds | .ownerVaultCount _ | .beneficiaryVaultLimit
  | .tokenWhitelist _ | .wrappedToken _ | .pendingProtocolConfig
  | .protocolConfigProposedAt | .requireUtf8Metadata | .maxVaultsPerOwner
  | .minCheckInCooldown => none

/-! ## States and calls -/

def u32Max : Nat := 2 ^ 32 - 1
def u64Max : Nat := 2 ^ 64 - 1
def i128Min : Int := -2 ^ 127
def i128Max : Int := 2 ^ 127 - 1

def InI128 (x : Int) : Prop := i128Min ≤ x ∧ x ≤ i128Max

/-- The contract's storage and the token ledger it moves funds on. -/
structure State where
  storage : Store DataKey.Value
  ledger : Ledger Address Address

/-- What a call sees of the host. -/
structure Env where
  /-- `env.ledger().timestamp()`. -/
  timestamp : Nat
  timestamp_le : timestamp ≤ u64Max
  /-- The addresses whose authorisation the call carries. -/
  authorized : Address → Bool
  /-- The contract never signs a call to itself. -/
  contract_unauthorized : authorized currentContractAddress = false
  /-- Whether a token contract accepts a transfer (token, source, destination,
  amount) that the source can pay; it may refuse for reasons of its own. -/
  tokenAccepts : Address → Address → Address → Int → Bool
  /-- The answer of an oracle contract to `query_release`, if it gives one. -/
  queryRelease : Address → Option Bool
  sha256 : Bytes → Bytes32
  /-- The serialised form of a vault (`vault.to_xdr(&env)`). -/
  toXdr : Vault → Bytes
  /-- Random bytes drawn by the call (`env.prng().gen_len(32)`). -/
  randomBytes : Bytes

/-- A call of the contract, or a part of one. -/
abbrev Contract := Tx Env State Failure

export Transaction.Tx (abort ask read update ensure fromSome onlyIf ifSome ifSomeElse forEach
  foldEach wp)

namespace State

def get (s : State) (k : DataKey) : Option k.Value := s.storage.get k

def put (s : State) (k : DataKey) (v : k.Value) : State :=
  { s with storage := s.storage.put k v }

def erase (s : State) (k : DataKey) : State :=
  { s with storage := s.storage.erase k }

/-- Stores a value, or removes the key if there is none. -/
def assign (s : State) (k : DataKey) (o : Option k.Value) : State :=
  match o with
  | some v => s.put k v
  | none => s.erase k

/-- The record of vault `id`. -/
def vault (s : State) (id : Nat) : Option Vault := s.get (.vault id)

/-- What `a` holds of `token`. -/
def holding (s : State) (token a : Address) : Int := s.ledger.holding token a

section Lemmas

variable {s : State} {k k' : DataKey} {v : k.Value} {id id' : Nat}

@[simp] theorem get_put_self : (s.put k v).get k = some v :=
  Store.get_put_self

@[simp] theorem get_put_of_ne (h : k' ≠ k) : (s.put k v).get k' = s.get k' :=
  Store.get_put_of_ne h

@[simp] theorem get_erase_self : (s.erase k).get k = none :=
  Store.get_erase_self

@[simp] theorem get_erase_of_ne (h : k' ≠ k) : (s.erase k).get k' = s.get k' :=
  Store.get_erase_of_ne h

@[simp] theorem ledger_put : (s.put k v).ledger = s.ledger := rfl

@[simp] theorem ledger_erase : (s.erase k).ledger = s.ledger := rfl

@[simp] theorem get_ledger {l : Ledger Address Address} :
    ({ s with ledger := l } : State).get k = s.get k := rfl

/-- Saving a vault changes that vault only. -/
@[simp] theorem vault_put_vault {x : Vault} :
    (s.put (.vault id) x).vault id' = if id' = id then some x else s.vault id' := by
  unfold vault
  by_cases h : id' = id
  · subst h
    simp
  · rw [get_put_of_ne (by simpa using h), if_neg h]

@[simp] theorem vault_put (h : ∀ i, k ≠ .vault i) : (s.put k v).vault id = s.vault id :=
  get_put_of_ne (h id).symm

@[simp] theorem vault_erase (h : ∀ i, k ≠ .vault i) : (s.erase k).vault id = s.vault id :=
  get_erase_of_ne (h id).symm

@[simp] theorem vault_assign {o : Option k.Value} (h : ∀ i, k ≠ .vault i) :
    (s.assign k o).vault id = s.vault id := by
  cases o <;> simp [assign, h]

@[simp] theorem ledger_assign {o : Option k.Value} : (s.assign k o).ledger = s.ledger := by
  cases o <;> rfl

@[simp] theorem get_assign_of_ne {o : Option k.Value} (h : k' ≠ k) :
    (s.assign k o).get k' = s.get k' := by
  cases o <;> simp [assign, h]

@[simp] theorem vault_ledger {l : Ledger Address Address} :
    ({ s with ledger := l } : State).vault id = s.vault id := rfl

end Lemmas

end State

/-! ## Host functions -/

def storageGet (k : DataKey) : Contract (Option k.Value) := read (·.get k)

def storageSet (k : DataKey) (v : k.Value) : Contract Unit := update (·.put k v)

def storageRemove (k : DataKey) : Contract Unit := update (·.erase k)

/-- `env.ledger().timestamp()`. -/
def timestamp : Contract Nat := ask (·.timestamp)

/-- `address.require_auth()`. -/
def requireAuth (a : Address) : Contract Unit := fun e s =>
  ensure (e.authorized a = true) .trap e s

/-- Fails with an error of the contract unless `c` holds. -/
def require (c : Prop) [Decidable c] (err : ContractError) : Contract Unit :=
  ensure c (.error err)

/-- `token::Client::transfer`. The token moves exactly `amount` or refuses: a
negative amount, an amount the source does not hold, a source other than the
contract that did not authorise the call, or for reasons of its own. -/
def transfer (token source dest : Address) (amount : Int) : Contract Unit := do
  ensure (0 ≤ amount) .trap
  let accepted ← ask fun e =>
    (decide (source = currentContractAddress) || e.authorized source) &&
      e.tokenAccepts token source dest amount
  ensure (accepted = true) .trap
  ensure (amount ≤ (← read fun s => s.holding token source)) .trap
  update fun s => { s with ledger := s.ledger.transfer ⟨token, source, dest, amount⟩ }

/-! ### Machine integers -/

/-- The result of a `u32` operation, unless it overflows. -/
def u32 (n : Nat) : Contract Nat := do
  ensure (n ≤ u32Max) .overflow
  pure n

/-- The result of a `u64` operation, unless it overflows. -/
def u64 (n : Nat) : Contract Nat := do
  ensure (n ≤ u64Max) .overflow
  pure n

/-- The result of an `i128` operation, unless it overflows. -/
def i128 (x : Int) : Contract Int := do
  ensure (i128Min ≤ x ∧ x ≤ i128Max) .trap
  pure x

/-- `a.checked_add(b)`, failing with `err` on overflow. -/
def checkedAdd (a b : Int) (err : ContractError) : Contract Int := do
  require (i128Min ≤ a + b ∧ a + b ≤ i128Max) err
  pure (a + b)

/-- Subtraction of unsigned integers, unless it underflows. -/
def subU (a b : Nat) : Contract Nat := do
  ensure (b ≤ a) .overflow
  pure (a - b)

/-- Division, unless by zero. -/
def divU (a b : Nat) : Contract Nat := do
  ensure (b ≠ 0) .trap
  pure (a / b)

/-- Division of `i128`, rounding towards zero, unless by zero. -/
def divI (a b : Int) : Contract Int := do
  ensure (b ≠ 0) .trap
  pure (a.tdiv b)

/-- `u64::saturating_add`. -/
def saturatingAdd64 (a b : Nat) : Nat := min (a + b) u64Max

/-- `u64::saturating_mul`. -/
def saturatingMul64 (a b : Nat) : Nat := min (a * b) u64Max

/-! ### Rules for the host functions -/

section Rules

variable {e : Env} {s t : State} {k : DataKey} {a token source dest : Address}
  {n m : Nat} {x y : Int} {err : ContractError}

-- the type of the value is fixed by the key, so it must not be used to find these rules
@[simp] theorem ok_storageGet {o : Option k.Value} :
    @Eq (no_index _) (storageGet k e s) (no_index (.ok (o, t))) ↔ s.get k = o ∧ s = t := by
  simp [storageGet]

@[simp ↓] theorem wp_storageGet {Q : Option k.Value → State → Prop} :
    @wp Env State Failure (no_index (Option k.Value)) (storageGet k) Q e s ↔ Q (s.get k) s := by
  simp [storageGet]

@[simp] theorem ok_storageSet {v : k.Value} {u : Unit} :
    storageSet k v e s = .ok (u, t) ↔ s.put k v = t := by
  simp [storageSet]

@[simp ↓] theorem wp_storageSet {v : k.Value} {Q : Unit → State → Prop} :
    wp (storageSet k v) Q e s ↔ Q () (s.put k v) := by
  simp [storageSet]

@[simp] theorem ok_storageRemove {u : Unit} :
    storageRemove k e s = .ok (u, t) ↔ s.erase k = t := by
  simp [storageRemove]

@[simp ↓] theorem wp_storageRemove {Q : Unit → State → Prop} :
    wp (storageRemove k) Q e s ↔ Q () (s.erase k) := by
  simp [storageRemove]

@[simp] theorem ok_timestamp : timestamp e s = .ok (n, t) ↔ e.timestamp = n ∧ s = t := by
  simp [timestamp]

@[simp ↓] theorem wp_timestamp {Q : Nat → State → Prop} :
    wp timestamp Q e s ↔ Q e.timestamp s := by
  simp [timestamp]

@[simp] theorem ok_requireAuth {u : Unit} :
    requireAuth a e s = .ok (u, t) ↔ e.authorized a = true ∧ s = t := by
  simp [requireAuth]

@[simp ↓] theorem wp_requireAuth {Q : Unit → State → Prop} :
    wp (requireAuth a) Q e s ↔ (e.authorized a = true → Q () s) := by
  simp [wp, Unique.forall_iff]

@[simp] theorem ok_require {c : Prop} [Decidable c] {u : Unit} :
    require c err e s = .ok (u, t) ↔ c ∧ s = t := by
  simp [require]

@[simp ↓] theorem wp_require {c : Prop} [Decidable c] {Q : Unit → State → Prop} :
    wp (require c err) Q e s ↔ (c → Q () s) := by
  simp [require]

/-- A check of an optional setting. -/
@[simp ↓ high] theorem wp_ifSome_require {α : Type} {o : Option α} {c : α → Prop}
    [∀ a, Decidable (c a)] {Q : Unit → State → Prop} :
    wp (ifSome o fun a => require (c a) err) Q e s ↔ ((∀ a, o = some a → c a) → Q () s) := by
  cases o <;> simp

@[simp] theorem ok_u32 : u32 n e s = .ok (m, t) ↔ n ≤ u32Max ∧ n = m ∧ s = t := by
  simp [u32, and_assoc, and_comm]

@[simp ↓] theorem wp_u32 {Q : Nat → State → Prop} :
    wp (u32 n) Q e s ↔ (n ≤ u32Max → Q n s) := by
  simp [u32]

@[simp] theorem ok_u64 : u64 n e s = .ok (m, t) ↔ n ≤ u64Max ∧ n = m ∧ s = t := by
  simp [u64, and_assoc, and_comm]

@[simp ↓] theorem wp_u64 {Q : Nat → State → Prop} :
    wp (u64 n) Q e s ↔ (n ≤ u64Max → Q n s) := by
  simp [u64]

@[simp] theorem ok_i128 :
    i128 x e s = .ok (y, t) ↔ (i128Min ≤ x ∧ x ≤ i128Max) ∧ x = y ∧ s = t := by
  simp [i128, and_assoc, and_comm]

@[simp ↓] theorem wp_i128 {Q : Int → State → Prop} :
    wp (i128 x) Q e s ↔ (i128Min ≤ x ∧ x ≤ i128Max → Q x s) := by
  simp [i128]

@[simp] theorem ok_checkedAdd {z : Int} :
    checkedAdd x y err e s = .ok (z, t) ↔
      (i128Min ≤ x + y ∧ x + y ≤ i128Max) ∧ x + y = z ∧ s = t := by
  simp [checkedAdd, and_assoc, and_comm, and_left_comm]

@[simp ↓] theorem wp_checkedAdd {Q : Int → State → Prop} :
    wp (checkedAdd x y err) Q e s ↔ (i128Min ≤ x + y ∧ x + y ≤ i128Max → Q (x + y) s) := by
  simp [checkedAdd]

@[simp] theorem ok_subU {r : Nat} : subU n m e s = .ok (r, t) ↔ m ≤ n ∧ n - m = r ∧ s = t := by
  simp [subU, and_assoc, and_comm, and_left_comm]

@[simp ↓] theorem wp_subU {Q : Nat → State → Prop} :
    wp (subU n m) Q e s ↔ (m ≤ n → Q (n - m) s) := by
  simp [subU]

@[simp] theorem ok_divU {r : Nat} : divU n m e s = .ok (r, t) ↔ m ≠ 0 ∧ n / m = r ∧ s = t := by
  simp [divU, and_assoc, and_comm, and_left_comm]

@[simp ↓] theorem wp_divU {Q : Nat → State → Prop} :
    wp (divU n m) Q e s ↔ (m ≠ 0 → Q (n / m) s) := by
  simp [divU]

@[simp] theorem ok_divI {z : Int} :
    divI x y e s = .ok (z, t) ↔ y ≠ 0 ∧ x.tdiv y = z ∧ s = t := by
  simp [divI, and_assoc, and_comm, and_left_comm]

@[simp ↓] theorem wp_divI {Q : Int → State → Prop} :
    wp (divI x y) Q e s ↔ (y ≠ 0 → Q (x.tdiv y) s) := by
  simp [divI]

/-- The token takes the transfer in state `s`. -/
def Payable (e : Env) (s : State) (token source dest : Address) (amount : Int) : Prop :=
  0 ≤ amount ∧ (source = currentContractAddress ∨ e.authorized source = true) ∧
    e.tokenAccepts token source dest amount = true ∧ amount ≤ s.holding token source

/-- The state after a transfer. -/
def State.pay (s : State) (token source dest : Address) (amount : Int) : State :=
  { s with ledger := s.ledger.transfer ⟨token, source, dest, amount⟩ }

@[simp] theorem ok_transfer {u : Unit} :
    transfer token source dest x e s = .ok (u, t) ↔
      Payable e s token source dest x ∧ s.pay token source dest x = t := by
  simp [transfer, Payable, State.pay, and_assoc]

@[simp ↓] theorem wp_transfer {Q : Unit → State → Prop} :
    wp (transfer token source dest x) Q e s ↔
      (Payable e s token source dest x → Q () (s.pay token source dest x)) := by
  simp [wp, Unique.forall_iff]

/-! ### How the host functions fail -/

variable {failure : Failure}

@[simp] theorem err_storageGet :
    @Eq (no_index _) (storageGet k e s) (no_index (.error failure)) ↔ False := by
  simp [storageGet]

@[simp] theorem err_storageSet {v : k.Value} : storageSet k v e s = .error failure ↔ False := by
  simp [storageSet]

@[simp] theorem err_storageRemove : storageRemove k e s = .error failure ↔ False := by
  simp [storageRemove]

@[simp] theorem err_timestamp : timestamp e s = .error failure ↔ False := by
  simp [timestamp]

@[simp] theorem err_requireAuth :
    requireAuth a e s = .error failure ↔ e.authorized a = false ∧ Failure.trap = failure := by
  simp [requireAuth]

@[simp] theorem err_require {c : Prop} [Decidable c] :
    require c err e s = .error failure ↔ ¬c ∧ Failure.error err = failure := by
  simp [require]

@[simp] theorem err_u64 : u64 n e s = .error failure ↔ u64Max < n ∧ Failure.overflow = failure := by
  simp [u64]

@[simp] theorem err_subU : subU n m e s = .error failure ↔ n < m ∧ Failure.overflow = failure := by
  simp [subU]

@[simp] theorem err_i128 : i128 x e s = .error failure ↔
    ¬ (i128Min ≤ x ∧ x ≤ i128Max) ∧ Failure.trap = failure := by
  simp [i128]

@[simp] theorem err_divU : divU n m e s = .error failure ↔ m = 0 ∧ Failure.trap = failure := by
  simp [divU]

@[simp] theorem err_checkedAdd : checkedAdd x y err e s = .error failure ↔
    ¬ (i128Min ≤ x + y ∧ x + y ≤ i128Max) ∧ Failure.error err = failure := by
  simp [checkedAdd]

/-- A refused transfer is a trap. -/
theorem transfer_trap (h : transfer token source dest x e s = .error failure) :
    failure = .trap := by
  simp only [transfer, Tx.err_bind, Tx.err_ensure, Tx.ok_ensure, Tx.err_ask, Tx.ok_ask,
    Tx.err_read, Tx.ok_read, Tx.err_update] at h
  obtain ⟨_, rfl⟩ | ⟨_, _, _, hask | ⟨_, _, _, ⟨_, rfl⟩ | ⟨_, _, _, hread | ⟨_, _, _, ⟨_, rfl⟩ |
    ⟨_, _, _, hupdate⟩⟩⟩⟩⟩ := h
  · rfl
  · exact hask.elim
  · rfl
  · exact hread.elim
  · rfl
  · exact hupdate.elim

namespace State

@[simp] theorem get_pay : (s.pay token source dest x).get k = s.get k := rfl

@[simp] theorem ledger_pay :
    (s.pay token source dest x).ledger = s.ledger.transfer ⟨token, source, dest, x⟩ := rfl

@[simp] theorem vault_pay {id : Nat} : (s.pay token source dest x).vault id = s.vault id := rfl

@[simp] theorem holding_put {v : k.Value} : (s.put k v).holding token a = s.holding token a := rfl

@[simp] theorem holding_erase : (s.erase k).holding token a = s.holding token a := rfl

end State

end Rules

end Heirloom
