import Mathlib.Tactic.Simps.Basic

/-!
# Data types of the vault contract

The records and enumerations that the contract keeps in storage, field by field
as in `types.rs`. Unsigned integers (`u32`, `u64`) are natural numbers and
`i128` is `Int`; the bounds of the machine types are checked where the code
computes with them (`Heirloom.Host`).
-/

namespace Heirloom

/-- An account or a contract on the ledger. -/
structure Address where
  id : Nat
deriving DecidableEq

/-- The address of the vault contract itself (`env.current_contract_address()`). -/
def currentContractAddress : Address := ⟨0⟩

abbrev Bytes := List UInt8

/-- `BytesN<32>`: hashes. -/
abbrev Bytes32 := Vector UInt8 32

instance : LawfulBEq Bytes32 := inferInstance

/-! ## Constants -/

def maxVestingSchedules : Nat := 20
def multisigProposalExpiry : Nat := 604800
def gracePeriodSeconds : Nat := 7 * 24 * 60 * 60
def maxMetadataLen : Nat := 256
def maxCustomMetadataLen : Nat := 2048
def ownershipTransferTimelock : Nat := 86400
def ownershipTransferExpiry : Nat := 604800
def defaultMinCheckinCooldown : Nat := 60
def maxAccelerateSeconds : Nat := 2592000
def adminTransferTimelock : Nat := 86400
def protocolConfigTimelock : Nat := 86400

/-! Durations that the code writes as literals. -/

def oneDay : Nat := 86400
def oneWeek : Nat := 604800
def thirtyDays : Nat := 2592000

/-- The most snapshots kept of a vault, a literal too. -/
def maxSnapshots : Nat := 1000

/-! ## Vaults -/

inductive ReleaseStatus
  | locked
  | released
  | cancelled
  | emergencyFrozen
deriving DecidableEq

inductive ReleaseCondition
  | ttlExpiry
  | ownerInitiated
  | oracle (address : Address)
deriving DecidableEq

/-- One heir: address, share in basis points, and the least amount worth paying. -/
structure BeneficiaryEntry where
  address : Address
  bps : Nat
  minimumThreshold : Int
deriving DecidableEq

structure Vault where
  owner : Address
  /-- Used when `beneficiaries` is empty. -/
  beneficiary : Address
  balance : Int
  checkInInterval : Nat
  lastCheckIn : Nat
  createdAt : Nat
  status : ReleaseStatus
  beneficiaries : List BeneficiaryEntry
  metadata : String
  tokenAddress : Address
  customMetadata : Bytes
  isPaused : Bool
  releaseCondition : ReleaseCondition
  parentVaultId : Option Nat
  passkeyHash : Option Bytes
  maxDepositAmount : Option Int
  withdrawalApprovalThreshold : Option Int
  /-- The most one `triggerRelease` may pay out. -/
  spendingLimit : Option Int
  inactivityPenaltyBps : Option Nat
  burnPercentage : Nat
  penaltyRecipient : Option Address
deriving DecidableEq

namespace Vault

@[simps]
def withOwner (v : Vault) (a : Address) : Vault := { v with owner := a }

@[simps]
def withBeneficiary (v : Vault) (a : Address) : Vault := { v with beneficiary := a }

@[simps]
def withBalance (v : Vault) (x : Int) : Vault := { v with balance := x }

@[simps]
def withCheckInInterval (v : Vault) (n : Nat) : Vault := { v with checkInInterval := n }

@[simps]
def withLastCheckIn (v : Vault) (n : Nat) : Vault := { v with lastCheckIn := n }

@[simps]
def withStatus (v : Vault) (r : ReleaseStatus) : Vault := { v with status := r }

@[simps]
def withBeneficiaries (v : Vault) (l : List BeneficiaryEntry) : Vault :=
  { v with beneficiaries := l }

end Vault

/-- A change of a vault's status, as logged by `recordStateTransition`. -/
structure StateTransitionEntry where
  fromStatus : ReleaseStatus
  toStatus : ReleaseStatus
  actor : Address
  timestamp : Nat
deriving DecidableEq

structure MetadataVersionEntry where
  version : Nat
  metadata : String
  updatedAt : Nat
  updatedBy : Address

/-- A vault as it was at `timestamp`. -/
structure VaultSnapshot where
  vault : Vault
  timestamp : Nat
  contentHash : Bytes32

/-! ## Protocol configuration -/

structure ProtocolConfig where
  minCheckInInterval : Option Nat
  maxCheckInInterval : Option Nat
  maxTtlSeconds : Nat
  ttlDecayRate : Nat
  requireUtf8Metadata : Bool
  maxVaultsPerOwner : Nat
deriving DecidableEq

/-! ## Check-ins and time to live -/

structure CheckInHistoryEntry where
  timestamp : Nat
deriving DecidableEq

structure CheckInStreak where
  current : Nat
  best : Nat
  lastTimestamp : Nat
deriving DecidableEq

structure HibernationEntry where
  startedAt : Nat
  durationSeconds : Nat
deriving DecidableEq

structure TtlBorrowRecord where
  borrowerVaultId : Nat
  lenderVaultId : Nat
  borrowedSeconds : Nat
  borrowedAt : Nat
  repaid : Bool
deriving DecidableEq

/-- One vault in the answer to `get_vault_batch_status`. -/
structure VaultStatusSummary where
  vaultId : Nat
  status : ReleaseStatus
  balance : Int
  lastCheckIn : Nat
  isExpired : Bool
deriving DecidableEq

/-! ## Passkeys and codes -/

structure PasskeyHash where
  hash : Bytes32
  addedAt : Nat
  biometricHash : Option Bytes

structure PasskeyDelegation where
  delegate : Address
  expiresAt : Nat

structure PasskeyEscrowRecord where
  recoveryContact : Address
  escrowedAt : Nat

structure BackupCode where
  code : String
  used : Bool
deriving DecidableEq

structure PasskeyRecoveryRequest where
  newPasskeyHash : Bytes32
  initiatedAt : Nat
  recoveryCode : String
  approvedContacts : List Address
  requiredContacts : Nat

/-! ## Withdrawals -/

structure WithdrawalLimit where
  dailyLimit : Int
  weeklyLimit : Int
  monthlyLimit : Int
deriving DecidableEq

structure WithdrawalTracker where
  dailyWithdrawn : Int
  dailyResetAt : Nat
  weeklyWithdrawn : Int
  weeklyResetAt : Nat
  monthlyWithdrawn : Int
  monthlyResetAt : Nat
deriving DecidableEq

structure WhitelistEntry where
  address : Address
  addedAt : Nat
  label : String
deriving DecidableEq

structure WithdrawalReversal where
  withdrawalId : Nat
  amount : Int
  withdrawnAt : Nat
  gracePeriodUntil : Nat
  reversed : Bool
deriving DecidableEq

structure WithdrawalEscrow where
  vaultId : Nat
  amount : Int
  timestamp : Nat
  beneficiary : Address
  verified : Bool
deriving DecidableEq

structure WithdrawalScheduleEntry where
  timestamp : Nat
  amount : Int
deriving DecidableEq

structure WithdrawalApprovalRequest where
  amount : Int
  requestedAt : Nat
  approvals : List Address
  requiredApprovals : Nat
  expiresAt : Nat
deriving DecidableEq

/-! ## Heirs -/

inductive BeneficiaryStatus
  | pending
  | accepted
  | declined
deriving DecidableEq

inductive ReleaseTrigger
  | expiry
  | manual
deriving DecidableEq

structure ConditionalAcceptanceEntry where
  conditions : String
  approvedByOwner : Bool
  acceptanceDeadline : Option Nat
  minBalanceThreshold : Option Int
deriving DecidableEq

structure BeneficiaryConditionalAcceptance where
  minBalanceThreshold : Int
  acceptedAt : Nat
deriving DecidableEq

structure BeneficiaryRotationEntry where
  effectiveTimestamp : Nat
  newBeneficiaries : List BeneficiaryEntry
deriving DecidableEq

structure BeneficiaryCommitment where
  commitment : Bytes32
  committedAt : Nat

structure ProofOfLifeEntry where
  beneficiary : Address
  submittedAt : Nat
  validUntil : Nat
deriving DecidableEq

structure ReleaseVoteEntry where
  voter : Address
  approve : Bool
  votedAt : Nat
deriving DecidableEq

structure PendingBeneficiaryUpdate where
  newBeneficiary : Address
  initiatedAt : Nat
  unlocksAt : Nat
deriving DecidableEq

structure OwnershipTransferRequest where
  newOwner : Address
  initiatedAt : Nat
  unlocksAt : Nat
  expiresAt : Nat
deriving DecidableEq

/-! ## Vesting -/

structure VestingSchedule where
  startTime : Nat
  interval : Nat
  numInstallments : Nat
  claimedInstallments : Nat
  totalAmount : Int
  cliffPeriod : Nat
deriving DecidableEq

structure VestingPenaltyConfig where
  penaltyBps : Nat
  gracePeriodSeconds : Nat
deriving DecidableEq

structure VestingPendingClaim where
  amount : Int
  beneficiary : Address
  initiatedAt : Nat
  reversalDeadline : Nat
  newInstallmentsClaimed : Nat
  prevInstallmentsClaimed : Nat
deriving DecidableEq

structure MilestoneEntry where
  label : String
  targetValue : Int
  currentValue : Int
  bps : Nat
  isFulfilled : Bool
  claimed : Bool
deriving DecidableEq

structure MilestoneVestingSchedule where
  totalAmount : Int
  milestones : List MilestoneEntry
  claimedAmount : Int
  oracle : Address
  paused : Bool
deriving DecidableEq

structure VestingCatchUpConfig where
  enabled : Bool
  maxCatchupInstallments : Nat
deriving DecidableEq

structure VestingBonusConfig where
  bonusBps : Nat
  onTimeWindowSeconds : Nat
deriving DecidableEq

structure VestingRolloverConfig where
  enabled : Bool
  rolledAmount : Int
deriving DecidableEq

structure VestingForfeitureConfig where
  forfeitureRecipient : Address
  forfeited : Bool
deriving DecidableEq

structure VestingAccelerationConfig where
  oracle : Address
  accelerated : Bool
deriving DecidableEq

structure VestingStaggerEntry where
  beneficiary : Address
  bps : Nat
  startTime : Nat
  interval : Nat
  numInstallments : Nat
  claimedInstallments : Nat
deriving DecidableEq

structure BeneficiaryVestingSchedule where
  beneficiary : Address
  vaultId : Nat
  startTime : Nat
  interval : Nat
  numInstallments : Nat
  claimedInstallments : Nat
  totalAmount : Int
  cliffPeriod : Nat
deriving DecidableEq

structure TokenStaking where
  vaultId : Nat
  stakingPool : Address
  stakedAmount : Int
  stakingStart : Nat
  annualYieldBps : Nat
  isActive : Bool
deriving DecidableEq

inductive YieldDistributionMode
  | distributeToBeneficiary
  | reinvest
  | split (bps : Nat)
deriving DecidableEq

structure YieldDistributionConfig where
  vaultId : Nat
  mode : YieldDistributionMode
  lastDistribution : Nat
  totalDistributed : Int
  totalReinvested : Int
deriving DecidableEq

structure TokenLending where
  vaultId : Nat
  borrower : Address
  amount : Int
  interestRateBps : Nat
  lentAt : Nat
  dueAt : Nat
  repaid : Bool
  interestEarned : Int
deriving DecidableEq

structure TokenCollateral where
  vaultId : Nat
  collateralAmount : Int
  loanAmount : Int
  collateralRatioBps : Nat
  active : Bool
  createdAt : Nat
deriving DecidableEq

/-! ## Multi-signature control -/

structure MultiSigConfig where
  signers : List Address
  threshold : Nat
deriving DecidableEq

inductive MultiSigOperation
  | withdraw
  | updateBeneficiary
  | cancelVault
  | updateCheckInInterval
  | transferOwnership
deriving DecidableEq

inductive ProposalStatus
  | pending
  | approved
  | rejected
  | executed
  | expired
  | vetoed
deriving DecidableEq

structure MultiSigProposal where
  id : Nat
  operation : MultiSigOperation
  approvals : List Address
  status : ProposalStatus
  expiresAt : Nat
  vaultId : Nat
  payload : Bytes
  addressPayload : Option Address
  createdAt : Nat
deriving DecidableEq

end Heirloom
