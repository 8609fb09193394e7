import Heirloom.Lib.Transaction
import Heirloom.Lib.Storage
import Heirloom.Lib.Runs
import Heirloom.Lib.Ledger
import Heirloom.Lib.Split
import Heirloom.Lib.Index
import Heirloom.Lib.Custody
import Heirloom.Lib.StorageTx
import Heirloom.Lib.TwoRuns
import Heirloom.Lib.VersionLog
import Heirloom.Lib.Forest
import Heirloom.Types
import Heirloom.Host
import Heirloom.Common
import Heirloom.Frame
import Heirloom.Payouts
import Heirloom.Admin
import Heirloom.Vaults
import Heirloom.Withdrawals
import Heirloom.CheckIns
import Heirloom.Heirs
import Heirloom.Ownership
import Heirloom.Release
import Heirloom.Vesting
import Heirloom.Milestones
import Heirloom.VestingClaims
import Heirloom.Multisig
import Heirloom.System
import Heirloom.Passkeys
import Heirloom.Results.Succession
import Heirloom.Results.Schedules
import Heirloom.Results.Deadlines
import Heirloom.Results.TtlBorrowing
import Heirloom.Results.DuplicateKeys
import Heirloom.Results.Indexes
import Heirloom.Results.Capacity
import Heirloom.Results.ProtocolConfig
import Heirloom.Results.BackupCodes
import Heirloom.Results.Passkeys
import Heirloom.Results.ScheduledWithdrawals
import Heirloom.Results.Snapshots
import Heirloom.Results.CheckInGuards
import Heirloom.Results.StatusLog
import Heirloom.Results.Installments
import Heirloom.Results.VestedAmounts
import Heirloom.Results.ReversibleClaims
import Heirloom.Results.UnvestedTotals
import Heirloom.Results.Staggers
import Heirloom.Results.HeirVesting
import Heirloom.Results.TtlDecay
import Heirloom.Results.Reveals
import Heirloom.Results.Hibernation
import Heirloom.Results.Solvency
import Heirloom.Results.Conservation
import Heirloom.Results.Splits
import Heirloom.Results.ReleaseVotes
import Heirloom.Results.Releases
import Heirloom.Results.ReleaseModes
import Heirloom.Results.WithdrawalGuards
import Heirloom.Results.WithdrawalWindows
import Heirloom.Verifier.Host
import Heirloom.Verifier.Contract
import Heirloom.Verifier.System
import Heirloom.Verifier.Specs
import Heirloom.Verifier.Disputes
import Heirloom.Verifier.Registry
import Heirloom.Verifier.Invalidation
import Heirloom.Verifier.History
import Heirloom.Verifier.Chains
import Heirloom.Verifier.Privacy
import Heirloom.Sbt.Compression
import Heirloom.Sbt.Codec
import Heirloom.Sbt.Contract
import Heirloom.Sbt.Composition
import Heirloom.Sbt.Holding
import Heirloom.Sbt.System
import Heirloom.Sbt.Metadata
import Heirloom.Sbt.Components
import Heirloom.Sbt.Resolution
import Heirloom.Lib.ReverseMap
import Heirloom.Modules.Host
import Heirloom.Modules.Anchoring
import Heirloom.Modules.Failover
import Heirloom.Modules.Voting
import Heirloom.Lib.ExchangeSort
import Heirloom.Lib.Search
import Heirloom.Lib.Unfolding
import Heirloom.Modules.Matching
import Heirloom.Modules.Templates
import Heirloom.Sbt.PreviousHolders
import Heirloom.Sbt.Escrows
import Heirloom.Results.Collateral
import Heirloom.Results.Batches
import Heirloom.Results.ApprovedWithdrawals
import Heirloom.Results.ReleaseSplits
import Heirloom.Lib.Checkpoint
import Heirloom.Backend.EventSourcing
import Heirloom.Backend.Replay
import Heirloom.Backend.Sequences
import Heirloom.Backend.MessageQueue
import Heirloom.Backend.Offsets
import Heirloom.Lib.SharedRegister
import Heirloom.Backend.Consensus
import Heirloom.Backend.LostUpdates
import Heirloom.Backend.Deadlock
import Heirloom.Backend.CircuitBreaker
import Heirloom.Lib.Buckets
import Heirloom.Backend.WebAuthn
import Heirloom.Lib.CheckThenInsert
import Heirloom.Lib.Tickets
import Heirloom.Backend.WebAuthnClients
import Heirloom.Backend.CredentialIds
import Heirloom.Backend.CredentialRemoval
import Heirloom.Backend.SignCounts
import Heirloom.Backend.WebhookSignatures
import Heirloom.Backend.MultilevelCache
import Heirloom.Lib.Replaced
import Heirloom.Backend.FeatureFlags
import Heirloom.Backend.TwoFactor
import Heirloom.Lib.Binary64
import Heirloom.Backend.HealthRouting
import Heirloom.Lib.Tally
import Heirloom.Backend.WebhookDelivery
import Heirloom.Lib.RunLength
import Heirloom.Verifier.Compression
import Heirloom.Verifier.Masking
import Heirloom.Verifier.Consistency
import Heirloom.Modules.Performance
import Heirloom.Results.CheckInHistory
import Heirloom.Countdown
import Heirloom.Results.OpenProposals
import Heirloom.Lib.LittleEndian
import Heirloom.Integrity
import Heirloom.Lib.BitGroups
import Heirloom.Backend.Admission
import Heirloom.Backend.Base32
import Heirloom.Lib.BubbleSort
import Heirloom.Modules.CompositionRules
import Heirloom.Modules.Auctions
import Heirloom.Results.Pagination
import Heirloom.Backend.ReplayedAmounts
import Heirloom.Backend.Saga
import Heirloom.Backend.PoisonMessages
import Heirloom.Backend.LruCache
import Heirloom.Results.Forfeitures
import Heirloom.Results.Rotations
import Heirloom.Results.ProposalLives
import Heirloom.Results.Postponements
import Heirloom.Results.Approvals
import Heirloom.Results.HeirNames
import Heirloom.Results.Orders
import Heirloom.Backend.VaultCache
import Heirloom.Modules.CredentialLife
import Heirloom.Backend.PriorityQueue
import Heirloom.Modules.Reputation
