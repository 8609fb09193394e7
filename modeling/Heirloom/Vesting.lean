import Heirloom.Payouts

/-!
# Vesting

A vault with a vesting schedule keeps its balance when it is released, and the
heirs claim it in parts: by time (with cliff, penalty, reversal window,
catch-up and bonus), by milestones, per heir, or staggered. The last section
has the staking yield, which is credited to the same balance.
-/

namespace Heirloom

open Transaction

/-! ## Setting up time-based schedules -/

/-- `i128` saturation. -/
def clampI128 (x : Int) : Int := max i128Min (min x i128Max)

/-- The sum of `amount` and of the amounts of the schedules `0 … count - 1`. -/
def totalScheduled (vaultId count : Nat) (amount : Int) : Contract Int :=
  foldEach (List.range count) amount fun total i => do
    let schedule : Option VestingSchedule ← storageGet (.vestingSchedule vaultId i)
    ifSomeElse schedule
      (fun (s : VestingSchedule) => checkedAdd total s.totalAmount .balanceOverflow)
      (pure total)

def setVestingSchedule (vaultId : Nat) (caller : Address)
    (startTime interval numInstallments : Nat) (amount : Int) (cliffPeriod : Nat) :
    Contract Nat := do
  assertNotPaused
  let vault ← loadLockedByOwner vaultId caller
  require (interval ≠ 0 ∧ numInstallments ≠ 0) .invalidInterval
  let duration ← u64 (interval * numInstallments)
  let endTime ← u64 (startTime + duration)
  require (startTime < endTime) .invalidVestingSchedule
  require (vault.balance ≠ 0) .emptyVault
  require (0 < amount) .invalidAmount
  let count : Nat := (← storageGet (.vestingScheduleCount vaultId)).getD 0
  let scheduled ← totalScheduled vaultId count amount
  require (scheduled ≤ vault.balance) .insufficientBalance
  require (count < maxVestingSchedules) .vaultCapacityExceeded
  storageSet (.vestingSchedule vaultId count)
    ⟨startTime, interval, numInstallments, 0, amount, cliffPeriod⟩
  storageSet (.vestingScheduleCount vaultId) (count + 1)
  return count

/-- What a schedule has not paid out yet, by its own count. -/
def VestingSchedule.unclaimed (schedule : VestingSchedule) : Contract Int := do
  let perInstallment ← divI schedule.totalAmount schedule.numInstallments
  let claimedAmount ← i128 (perInstallment * schedule.claimedInstallments)
  return clampI128 (schedule.totalAmount - claimedAmount)

/-- Removes a schedule and adds what it has not paid out to the balance, in
which it was counted all along. -/
def cancelVestingSchedule (vaultId scheduleId : Nat) (caller : Address) : Contract Unit := do
  requireAuth caller
  let vault ← loadVault vaultId
  require (caller = vault.owner) .notOwner
  let schedule : VestingSchedule ←
    fromSome (← storageGet (.vestingSchedule vaultId scheduleId)) (.error .vestingNotFound)
  let unclaimed ← schedule.unclaimed
  saveVault vaultId (vault.withBalance (clampI128 (vault.balance + unclaimed)))
  storageRemove (.vestingSchedule vaultId scheduleId)

def setVestingPenalty (vaultId : Nat) (caller : Address) (penaltyBps gracePeriod : Nat) :
    Contract Unit := do
  requireAuth caller
  let vault ← loadVault vaultId
  require (caller = vault.owner) .notOwner
  let schedule : Option VestingSchedule ← storageGet (.vestingSchedule vaultId 0)
  require (schedule.isSome = true) .vestingNotFound
  require (penaltyBps ≠ 0 ∧ penaltyBps ≤ 10000) .invalidBps
  storageSet (.vestingPenalty vaultId 0) ⟨penaltyBps, gracePeriod⟩

/-- Installments unlocked at `now`, the first one at `startTime`. -/
def unlockedInstallments (now startTime interval numInstallments : Nat) : Contract Nat := do
  let elapsed ← divU (now - startTime) interval
  let unlocked ← u64 (elapsed + 1)
  return min unlocked numInstallments

/-- The time at which installment `i` (counted from 1) unlocks. -/
def VestingSchedule.unlockTime (schedule : VestingSchedule) (i : Nat) : Nat :=
  saturatingAdd64 schedule.startTime (saturatingMul64 (i - 1) schedule.interval)

/-- The installments that a claim covers. -/
def VestingSchedule.claimRange (schedule : VestingSchedule) (unlocked : Nat) : List Nat :=
  List.range' (schedule.claimedInstallments + 1) (unlocked - schedule.claimedInstallments)

/-- The schedule that a claim draws on, for a released vault, once it has started. -/
def loadClaimSchedule (vaultId : Nat) : Contract VestingSchedule := do
  let schedule : VestingSchedule ←
    fromSome (← storageGet (.vestingSchedule vaultId 0)) (.error .vestingNotFound)
  require (schedule.claimedInstallments < schedule.numInstallments) .vestingAlreadyComplete
  require (schedule.startTime ≤ (← timestamp)) .nothingToClaimYet
  return schedule

def assertCliffReached (schedule : VestingSchedule) : Contract Unit :=
  onlyIf (0 < schedule.cliffPeriod) do
    let cliff ← u64 (schedule.startTime + schedule.cliffPeriod)
    require (cliff ≤ (← timestamp)) .cliffNotReached

/-- What `claimable` installments are worth: the last claim takes the balance. -/
def installmentAmount (vault : Vault) (schedule : VestingSchedule) (unlocked claimable : Nat) :
    Contract Int := do
  let perInstallment ← divI schedule.totalAmount schedule.numInstallments
  if schedule.numInstallments ≤ unlocked then
    pure vault.balance
  else
    i128 (perInstallment * claimable)

/-- Pays a claim to the heirs and advances the schedule. -/
def payClaim (vaultId : Nat) (vault : Vault) (schedule : VestingSchedule) (amount : Int)
    (claimed : Nat) : Contract Unit := do
  payHeirs vault amount
  let newBalance ← i128 (vault.balance - amount)
  saveVault vaultId (vault.withBalance newBalance)
  storageSet (.vestingSchedule vaultId 0) { schedule with claimedInstallments := claimed }

/-! ## Claims with a reversal window -/

def initiateVestingClaim (vaultId reversalWindowSeconds : Nat) : Contract Int := do
  assertNotPaused
  require (reversalWindowSeconds ≠ 0) .invalidInterval
  let current : Option VestingPendingClaim ← storageGet (.vestingPendingClaim vaultId 0)
  require (current.isSome = false) .invalidAmount
  let vault ← loadVault vaultId
  require (vault.status = .released) .alreadyReleased
  let schedule ← loadClaimSchedule vaultId
  let now ← timestamp
  let unlocked ←
    unlockedInstallments now schedule.startTime schedule.interval schedule.numInstallments
  let claimable := unlocked - schedule.claimedInstallments
  require (claimable ≠ 0) .nothingToClaimYet
  let amount ← installmentAmount vault schedule unlocked claimable
  let beneficiary := (vault.beneficiaries.head?.map (·.address)).getD vault.beneficiary
  let reversalDeadline ← u64 (now + reversalWindowSeconds)
  storageSet (.vestingSchedule vaultId 0) { schedule with claimedInstallments := unlocked }
  storageSet (.vestingPendingClaim vaultId 0)
    ⟨amount, beneficiary, now, reversalDeadline, unlocked, schedule.claimedInstallments⟩
  return amount

def reverseVestingClaim (vaultId : Nat) (caller : Address) : Contract Unit := do
  requireAuth caller
  let vault ← loadVault vaultId
  require (caller = vault.owner) .notOwner
  let pending : VestingPendingClaim ←
    fromSome (← storageGet (.vestingPendingClaim vaultId 0)) (.error .vestingReversalNotFound)
  require ((← timestamp) ≤ pending.reversalDeadline) .vestingReversalExpired
  ifSome (← storageGet (.vestingSchedule vaultId 0)) fun (schedule : VestingSchedule) =>
    storageSet (.vestingSchedule vaultId 0)
      { schedule with claimedInstallments := pending.prevInstallmentsClaimed }
  storageRemove (.vestingPendingClaim vaultId 0)

def finalizeVestingClaim (vaultId : Nat) : Contract Int := do
  assertNotPaused
  let pending : VestingPendingClaim ←
    fromSome (← storageGet (.vestingPendingClaim vaultId 0)) (.error .vestingReversalNotFound)
  require (pending.reversalDeadline < (← timestamp)) .invalidInterval
  let vault ← loadVault vaultId
  require (pending.amount ≤ vault.balance) .insufficientBalance
  transfer vault.tokenAddress currentContractAddress pending.beneficiary pending.amount
  let newBalance ← i128 (vault.balance - pending.amount)
  saveVault vaultId (vault.withBalance newBalance)
  storageRemove (.vestingPendingClaim vaultId 0)
  return pending.amount

/-! ## Claims -/

/-- The amount of a claim after the penalty for late installments. -/
def penalizedAmount (vault : Vault) (schedule : VestingSchedule) (penalty : VestingPenaltyConfig)
    (unlocked claimable : Nat) (baseAmount : Int) : Contract Int := do
  let now ← timestamp
  let lateCutoff := now - penalty.gracePeriodSeconds
  let lateCount :=
    (schedule.claimRange unlocked).countP fun i => schedule.unlockTime i < lateCutoff
  if 0 < lateCount then do
    let perInstallment ← divI schedule.totalAmount schedule.numInstallments
    let onTimeAmount ← i128 (perInstallment * ((claimable - lateCount : Nat) : Int))
    let lateAmount ← i128 (perInstallment * lateCount)
    let product ← i128 (lateAmount * penalty.penaltyBps)
    let gross ← i128 (onTimeAmount + lateAmount)
    let penalized ← i128 (gross - product.tdiv 10000)
    return if schedule.numInstallments ≤ unlocked then min penalized vault.balance else penalized
  else
    pure baseAmount

/-- Adds what was rolled over and clears it. -/
def addRollover (vaultId : Nat) (amount : Int) : Contract Int := do
  let rollover : Option VestingRolloverConfig ← storageGet (.vestingRollover vaultId)
  ifSomeElse rollover
    (fun (config : VestingRolloverConfig) =>
      if config.enabled = true ∧ 0 < config.rolledAmount then do
        let total ← i128 (amount + config.rolledAmount)
        storageSet (.vestingRollover vaultId) { config with rolledAmount := 0 }
        return total
      else
        pure amount)
    (pure amount)

/-- Installments unlocked for `claimVestedInstallment`: all of them once accelerated. -/
def unlockedForClaim (vaultId : Nat) (schedule : VestingSchedule) : Contract Nat := do
  let acceleration : Option VestingAccelerationConfig ← storageGet (.vestingAcceleration vaultId)
  if acceleration.any (·.accelerated) = true then
    pure schedule.numInstallments
  else
    unlockedInstallments (← timestamp) schedule.startTime schedule.interval
      schedule.numInstallments

def claimVestedInstallment (vaultId : Nat) : Contract Int := do
  assertNotPaused
  let vault ← loadVault vaultId
  require (vault.status = .released) .alreadyReleased
  let schedule ← loadClaimSchedule vaultId
  assertCliffReached schedule
  let unlocked ← unlockedForClaim vaultId schedule
  let claimable := unlocked - schedule.claimedInstallments
  let rollover : Option VestingRolloverConfig ← storageGet (.vestingRollover vaultId)
  require (claimable ≠ 0 ∨ rollover.any (fun c => c.enabled && decide (c.rolledAmount ≠ 0)) = true)
    .nothingToClaimYet
  let ownAmount ← installmentAmount vault schedule unlocked claimable
  let baseAmount ← addRollover vaultId ownAmount
  let penalty : Option VestingPenaltyConfig ← storageGet (.vestingPenalty vaultId 0)
  let amount ← ifSomeElse penalty
    (fun (p : VestingPenaltyConfig) => penalizedAmount vault schedule p unlocked claimable baseAmount)
    (pure baseAmount)
  require (amount ≤ vault.balance) .insufficientBalance
  payClaim vaultId vault schedule amount unlocked
  -- the reduction, for the event
  onlyIf (amount < baseAmount) do let _ ← i128 (baseAmount - amount)
  return amount

def setVestingCatchup (vaultId : Nat) (caller : Address) (enabled : Bool)
    (maxCatchupInstallments : Nat) : Contract Unit := do
  assertNotPaused
  requireAuth caller
  let vault ← loadVault vaultId
  require (caller = vault.owner) .notOwner
  storageSet (.vestingCatchUp vaultId) ⟨enabled, maxCatchupInstallments⟩

def claimCatchupVesting (vaultId : Nat) : Contract Int := do
  assertNotPaused
  let vault ← loadVault vaultId
  require (vault.status = .released) .alreadyReleased
  let config : VestingCatchUpConfig ←
    fromSome (← storageGet (.vestingCatchUp vaultId)) (.error .catchUpNotEnabled)
  require (config.enabled = true) .catchUpNotEnabled
  let schedule ← loadClaimSchedule vaultId
  assertCliffReached schedule
  let unlocked ← unlockedInstallments (← timestamp) schedule.startTime schedule.interval
    schedule.numInstallments
  let due := unlocked - schedule.claimedInstallments
  require (due ≠ 0) .nothingToClaimYet
  let claimable :=
    if 0 < config.maxCatchupInstallments then min due config.maxCatchupInstallments else due
  let newClaimed ← u32 (schedule.claimedInstallments + claimable)
  let amount ← installmentAmount vault schedule newClaimed claimable
  require (amount ≤ vault.balance) .insufficientBalance
  payClaim vaultId vault schedule amount newClaimed
  return amount

def setVestingBonus (vaultId : Nat) (caller : Address) (bonusBps onTimeWindowSeconds : Nat) :
    Contract Unit := do
  assertNotPaused
  requireAuth caller
  let vault ← loadVault vaultId
  require (caller = vault.owner) .notOwner
  require (bonusBps ≠ 0 ∧ bonusBps ≤ 10000) .invalidBps
  storageSet (.vestingBonus vaultId) ⟨bonusBps, onTimeWindowSeconds⟩

/-- Whether `now` is within the window after each of the unlock times. -/
def allOnTime (now window : Nat) : List Nat → Contract Bool
  | [] => pure true
  | unlockTime :: times => do
      let lastMoment ← u64 (unlockTime + window)
      if lastMoment < now then
        pure false
      else
        allOnTime now window times

/-- The bonus part of each share, for the events of a claim that earned one. -/
def reportBonusShares (vault : Vault) (totalAmount : Int) (bonusBps : Nat) (onTime : Bool) :
    Contract Unit :=
  onlyIf (onTime = true ∧ vault.beneficiaries ≠ []) do
    forEach (splitPayments totalAmount 10000 totalAmount vault.beneficiaries) fun p => do
      let _ ← i128 (p.2 * bonusBps)

def claimWithBonus (vaultId : Nat) : Contract Int := do
  assertNotPaused
  let vault ← loadVault vaultId
  require (vault.status = .released) .alreadyReleased
  let config : VestingBonusConfig ←
    fromSome (← storageGet (.vestingBonus vaultId)) (.error .bonusNotEnabled)
  let schedule ← loadClaimSchedule vaultId
  assertCliffReached schedule
  let now ← timestamp
  let unlocked ←
    unlockedInstallments now schedule.startTime schedule.interval schedule.numInstallments
  let claimable := unlocked - schedule.claimedInstallments
  require (claimable ≠ 0) .nothingToClaimYet
  let baseAmount ← installmentAmount vault schedule unlocked claimable
  let onTime ← allOnTime now config.onTimeWindowSeconds
    ((schedule.claimRange unlocked).map schedule.unlockTime)
  let product ← i128 (if onTime = true then baseAmount * config.bonusBps else 0)
  let totalAmount ← i128 (baseAmount + product.tdiv 10000)
  if vault.balance < totalAmount then do
    -- the vault cannot cover the bonus: the base is paid without it
    let fallback := min baseAmount vault.balance
    payClaim vaultId vault schedule fallback unlocked
    return fallback
  else do
    payClaim vaultId vault schedule totalAmount unlocked
    reportBonusShares vault totalAmount config.bonusBps onTime
    return totalAmount

/-! ## Clawback -/

/-- The unclaimed installments of the schedules `0 … count - 1`. -/
def totalUnvested (vaultId count : Nat) : Contract Int :=
  foldEach (List.range count) 0 fun total i => do
    let schedule : Option VestingSchedule ← storageGet (.vestingSchedule vaultId i)
    ifSomeElse schedule
      (fun (s : VestingSchedule) => do
        let remaining ← subU s.numInstallments s.claimedInstallments
        if 0 < remaining then do
          let perInstallment ← divI s.totalAmount s.numInstallments
          let unvested ← i128 (perInstallment * remaining)
          i128 (total + unvested)
        else
          pure total)
      (pure total)

/-- Marks the schedules `0 … count - 1` as fully claimed. -/
def closeSchedules (vaultId count : Nat) : Contract Unit :=
  forEach (List.range count) fun i => do
    ifSome (← storageGet (.vestingSchedule vaultId i)) fun (schedule : VestingSchedule) =>
      storageSet (.vestingSchedule vaultId i)
        { schedule with claimedInstallments := schedule.numInstallments }

def clawbackUnvested (vaultId : Nat) (caller : Address) : Contract Int := do
  assertNotPaused
  requireAuth caller
  let vault ← loadVault vaultId
  require (caller = vault.owner) .notOwner
  require (vault.status = .released) .alreadyReleased
  let count : Nat := (← storageGet (.vestingScheduleCount vaultId)).getD 0
  require (count ≠ 0) .vestingNotFound
  let unvested ← totalUnvested vaultId count
  require (unvested ≠ 0) .nothingToClawback
  require (unvested ≤ vault.balance) .insufficientBalance
  transfer vault.tokenAddress currentContractAddress vault.owner unvested
  let newBalance ← i128 (vault.balance - unvested)
  closeSchedules vaultId count
  saveVault vaultId (vault.withBalance newBalance)
  return unvested

/-- Adds what schedule `i` has not paid out yet. -/
def addUnclaimed (vaultId : Nat) (total : Int) (i : Nat) : Contract Int := do
  let schedule : Option VestingSchedule ← storageGet (.vestingSchedule vaultId i)
  ifSomeElse schedule
    (fun (s : VestingSchedule) => do return clampI128 (total + (← s.unclaimed)))
    (pure total)

def getTotalUnvestedAmount (vaultId : Nat) : Contract Int := do
  let count : Nat := (← storageGet (.vestingScheduleCount vaultId)).getD 0
  foldEach (List.range count) 0 (addUnclaimed vaultId)

/-! ## Milestones -/

def setMilestoneVesting (vaultId : Nat) (caller : Address) (milestones : List MilestoneEntry)
    (oracle : Address) : Contract Unit := do
  assertNotPaused
  let vault ← loadLockedByOwner vaultId caller
  require (vault.balance ≠ 0) .emptyVault
  let schedule : Option VestingSchedule ← storageGet (.vestingSchedule vaultId 0)
  require (schedule.isSome = false) .alreadyReleased
  require (milestones ≠ []) .invalidBps
  let total ← u32 (milestones.map (·.bps)).sum
  require (total = 10000) .invalidBps
  require (∀ m ∈ milestones, m.isFulfilled = false) .invalidAmount
  storageSet (.milestoneVestingSchedule vaultId) ⟨vault.balance, milestones, 0, oracle, false⟩

/-- The milestone schedule, for the owner of the vault. -/
def loadMilestonesByOwner (vaultId : Nat) (caller : Address) :
    Contract MilestoneVestingSchedule := do
  assertNotPaused
  requireAuth caller
  let vault ← loadVault vaultId
  require (caller = vault.owner) .notOwner
  fromSome (← storageGet (.milestoneVestingSchedule vaultId)) (.error .vestingNotFound)

def pauseMilestoneVesting (vaultId : Nat) (caller : Address) : Contract Unit := do
  let schedule ← loadMilestonesByOwner vaultId caller
  require (schedule.paused = false) .paused
  storageSet (.milestoneVestingSchedule vaultId) { schedule with paused := true }

def resumeMilestoneVesting (vaultId : Nat) (caller : Address) : Contract Unit := do
  let schedule ← loadMilestonesByOwner vaultId caller
  require (schedule.paused = true) .paused
  storageSet (.milestoneVestingSchedule vaultId) { schedule with paused := false }

/-- Changes a milestone that exists and is not fulfilled yet. -/
def updateMilestone (milestones : List MilestoneEntry) (index : Nat)
    (f : MilestoneEntry → MilestoneEntry) : Contract (List MilestoneEntry) := do
  let milestone ← fromSome milestones[index]? (.error .invalidAmount)
  require (milestone.isFulfilled = false) .invalidAmount
  return milestones.set index (f milestone)

def adjustMilestoneTargets (vaultId : Nat) (caller : Address) (adjustments : List (Nat × Int)) :
    Contract Unit := do
  let schedule ← loadMilestonesByOwner vaultId caller
  let milestones ← foldEach adjustments schedule.milestones fun ms adjustment =>
    updateMilestone ms adjustment.1 fun m => { m with targetValue := adjustment.2 }
  storageSet (.milestoneVestingSchedule vaultId) { schedule with milestones := milestones }

def emergencyFulfillMilestones (vaultId : Nat) (caller : Address) (indices : List Nat) :
    Contract Unit := do
  let schedule ← loadMilestonesByOwner vaultId caller
  let milestones ← foldEach indices schedule.milestones fun ms index =>
    updateMilestone ms index fun m =>
      { m with currentValue := max m.currentValue m.targetValue, isFulfilled := true }
  require (indices ≠ []) .invalidAmount
  storageSet (.milestoneVestingSchedule vaultId) { schedule with milestones := milestones }

/-- A milestone after a report of `value`. -/
def MilestoneEntry.progress (m : MilestoneEntry) (value : Int) : MilestoneEntry :=
  let newValue := max value 0
  { m with
    currentValue := newValue
    isFulfilled :=
      if m.targetValue ≤ newValue ∧ ¬ m.targetValue ≤ m.currentValue then true
      else if newValue < m.targetValue then false
      else m.isFulfilled }

def reportMilestoneProgress (vaultId : Nat) (indices : List Nat) (currentValues : List Int) :
    Contract Unit := do
  assertNotPaused
  require (indices.length = currentValues.length) .invalidAmount
  let schedule : MilestoneVestingSchedule ←
    fromSome (← storageGet (.milestoneVestingSchedule vaultId)) (.error .vestingNotFound)
  require (schedule.paused = false) .paused
  requireAuth schedule.oracle
  let milestones ← foldEach (indices.zip currentValues) schedule.milestones fun ms report =>
    updateMilestone ms report.1 fun m => m.progress report.2
  onlyIf (indices ≠ []) do
    let _ ← loadVault vaultId
    storageSet (.milestoneVestingSchedule vaultId) { schedule with milestones := milestones }

/-- A milestone that can be claimed now. -/
def MilestoneEntry.claimable (m : MilestoneEntry) : Bool := m.isFulfilled && !m.claimed

/-- One round of the loop over the milestones: the last one takes what is left. -/
def milestoneRound (schedule : MilestoneVestingSchedule) (total : Int)
    (entry : MilestoneEntry × Nat) : Contract Int :=
  if entry.1.claimable = true then do
    if entry.2 + 1 = schedule.milestones.length then do
      let rest ← i128 (schedule.totalAmount - total)
      let share ← i128 (rest - schedule.claimedAmount)
      i128 (total + share)
    else do
      let product ← i128 (schedule.totalAmount * entry.1.bps)
      i128 (total + product.tdiv 10000)
  else
    pure total

/-- What the claimable milestones are worth. -/
def milestoneClaim (schedule : MilestoneVestingSchedule) : Contract Int :=
  foldEach schedule.milestones.zipIdx 0 (milestoneRound schedule)

def claimMilestoneInstallments (vaultId : Nat) : Contract Int := do
  assertNotPaused
  let vault ← loadVault vaultId
  require (vault.status = .released) .alreadyReleased
  let schedule : MilestoneVestingSchedule ←
    fromSome (← storageGet (.milestoneVestingSchedule vaultId)) (.error .vestingNotFound)
  require (schedule.paused = false) .paused
  let amount ← milestoneClaim schedule
  require (schedule.milestones.any (·.claimable) = true) .nothingToClaimYet
  require (amount ≤ vault.balance) .insufficientBalance
  payHeirs vault amount
  let newBalance ← i128 (vault.balance - amount)
  let newClaimed ← i128 (schedule.claimedAmount + amount)
  let milestones := schedule.milestones.map fun m =>
    if m.claimable = true then { m with claimed := true } else m
  saveVault vaultId (vault.withBalance newBalance)
  storageSet (.milestoneVestingSchedule vaultId)
    { schedule with milestones := milestones, claimedAmount := newClaimed }
  return amount

/-! ## Rollover, forfeiture and acceleration -/

def setVestingRollover (vaultId : Nat) (caller : Address) (enabled : Bool) : Contract Unit := do
  assertNotPaused
  requireAuth caller
  let vault ← loadVault vaultId
  require (caller = vault.owner) .notOwner
  storageSet (.vestingRollover vaultId) ⟨enabled, 0⟩

def setVestingForfeiture (vaultId : Nat) (caller forfeitureRecipient : Address) :
    Contract Unit := do
  assertNotPaused
  requireAuth caller
  let vault ← loadVault vaultId
  require (caller = vault.owner) .notOwner
  storageSet (.vestingForfeiture vaultId) ⟨forfeitureRecipient, false⟩

def setVestingAcceleration (vaultId : Nat) (caller oracle : Address) : Contract Unit := do
  assertNotPaused
  requireAuth caller
  let vault ← loadVault vaultId
  require (caller = vault.owner) .notOwner
  storageSet (.vestingAcceleration vaultId) ⟨oracle, false⟩

def accelerateVesting (vaultId : Nat) (caller : Address) : Contract Unit := do
  assertNotPaused
  requireAuth caller
  let config : VestingAccelerationConfig ←
    fromSome (← storageGet (.vestingAcceleration vaultId)) (.error .vestingNotFound)
  require (caller = config.oracle) .notOwner
  require (config.accelerated = false) .vestingAlreadyAccelerated
  storageSet (.vestingAcceleration vaultId) { config with accelerated := true }

/-! ## Staggered schedules and schedules of one heir -/

def setVestingStagger (vaultId : Nat) (caller : Address) (entries : List VestingStaggerEntry) :
    Contract Unit := do
  assertNotPaused
  let _ ← loadLockedByOwner vaultId caller
  let total ← u32 (entries.map (·.bps)).sum
  require (total = 10000) .invalidBps
  storageSet (.vestingStagger vaultId) entries

/-- Progress of a staggered claim through the entries. -/
structure StaggerProgress where
  balance : Int
  entries : List VestingStaggerEntry
  total : Int

/-- Installments of `entry` that `caller` may claim now, if there are any. -/
def staggerUnlocked (caller : Address) (entry : VestingStaggerEntry) : Contract Nat := do
  let now ← timestamp
  if entry.beneficiary = caller ∧ entry.claimedInstallments < entry.numInstallments ∧
      entry.startTime ≤ now then
    unlockedInstallments now entry.startTime entry.interval entry.numInstallments
  else
    pure entry.claimedInstallments

/-- What an entry is worth: the last claim takes the whole share. -/
def staggerAmount (share : Int) (entry : VestingStaggerEntry) (unlocked claimable : Nat) :
    Contract Int := do
  let perInstallment ← divI share entry.numInstallments
  if entry.numInstallments ≤ unlocked then
    pure share
  else
    i128 (perInstallment * claimable)

/-- Pays one entry of a staggered schedule out of what is left of the balance. -/
def claimStaggerEntry (vault : Vault) (caller : Address) (acc : StaggerProgress)
    (entry : VestingStaggerEntry) : Contract StaggerProgress := do
  let unlocked ← staggerUnlocked caller entry
  let claimable := unlocked - entry.claimedInstallments
  if claimable = 0 then
    return { acc with entries := acc.entries ++ [entry] }
  else do
    let product ← i128 (acc.balance * entry.bps)
    let amount ← staggerAmount (product.tdiv 10000) entry unlocked claimable
    if 0 < amount then do
      transfer vault.tokenAddress currentContractAddress caller amount
      let newBalance ← i128 (acc.balance - amount)
      let newTotal ← i128 (acc.total + amount)
      return ⟨newBalance, acc.entries ++ [{ entry with claimedInstallments := unlocked }], newTotal⟩
    else
      return { acc with entries := acc.entries ++ [entry] }

def claimStaggeredVesting (vaultId : Nat) (caller : Address) : Contract Int := do
  assertNotPaused
  requireAuth caller
  let vault ← loadVault vaultId
  require (vault.status = .released) .alreadyReleased
  let entries : List VestingStaggerEntry ←
    fromSome (← storageGet (.vestingStagger vaultId)) (.error .vestingStaggerNotFound)
  let progress ← foldEach entries ⟨vault.balance, [], 0⟩ (claimStaggerEntry vault caller)
  require (∃ entry ∈ entries, entry.beneficiary = caller) .notBeneficiary
  require (progress.total ≠ 0) .nothingToClaimYet
  saveVault vaultId (vault.withBalance progress.balance)
  storageSet (.vestingStagger vaultId) progress.entries
  return progress.total

def setBeneficiaryVesting (vaultId : Nat) (caller beneficiary : Address)
    (startTime interval numInstallments cliffPeriod : Nat) : Contract Unit := do
  requireAuth caller
  let vault ← loadVault vaultId
  require (caller = vault.owner) .notOwner
  require (interval ≠ 0 ∧ numInstallments ≠ 0) .invalidAmount
  storageSet (.beneficiaryVestingSchedule vaultId beneficiary)
    ⟨beneficiary, vaultId, startTime, interval, numInstallments, 0, vault.balance, cliffPeriod⟩

def claimBeneficiaryVesting (vaultId : Nat) (beneficiary : Address) : Contract Int := do
  let vault ← loadVault vaultId
  require (vault.status = .released) .alreadyReleased
  let schedule : BeneficiaryVestingSchedule ←
    fromSome (← storageGet (.beneficiaryVestingSchedule vaultId beneficiary))
      (.error .vestingNotFound)
  let now ← timestamp
  let cliff ← u64 (schedule.startTime + schedule.cliffPeriod)
  require (cliff ≤ now) .cliffNotReached
  let available ←
    unlockedInstallments now schedule.startTime schedule.interval schedule.numInstallments
  require (schedule.claimedInstallments < available) .nothingToClaimYet
  let perInstallment ← divI schedule.totalAmount schedule.numInstallments
  let newClaims := available - schedule.claimedInstallments
  let partAmount ← i128 (perInstallment * newClaims)
  let amount := if available = schedule.numInstallments then vault.balance else partAmount
  require (0 < amount ∧ amount ≤ vault.balance) .invalidAmount
  let newBalance ← i128 (vault.balance - amount)
  saveVault vaultId (vault.withBalance newBalance)
  storageSet (.beneficiaryVestingSchedule vaultId beneficiary)
    { schedule with claimedInstallments := available }
  transfer vault.tokenAddress currentContractAddress beneficiary amount
  return amount

/-! ## Staking yield -/

def enableTokenStaking (vaultId : Nat) (stakingPool : Address) (annualYieldBps : Nat) :
    Contract Unit := do
  let vault ← loadVault vaultId
  requireAuth vault.owner
  storageSet (.tokenStaking vaultId)
    ⟨vaultId, stakingPool, 0, ← timestamp, annualYieldBps, true⟩

def disableTokenStaking (vaultId : Nat) : Contract Unit := do
  let vault ← loadVault vaultId
  requireAuth vault.owner
  ifSome (← storageGet (.tokenStaking vaultId)) fun (staking : TokenStaking) =>
    storageSet (.tokenStaking vaultId) { staking with isActive := false }

def setYieldDistribution (vaultId : Nat) (mode : YieldDistributionMode) : Contract Unit := do
  let vault ← loadVault vaultId
  requireAuth vault.owner
  storageSet (.yieldDistributionConfig vaultId) ⟨vaultId, mode, ← timestamp, 0, 0⟩

/-- `x` if it is an `i128`, and `other` if it overflows. -/
def orOverflow (x other : Int) : Int := if i128Min ≤ x ∧ x ≤ i128Max then x else other

/-- The yield of the staked amount until `now`. -/
def TokenStaking.yieldAmount (staking : TokenStaking) (now : Nat) : Int :=
  let rate := staking.stakedAmount * staking.annualYieldBps
  let product := rate * ((now - staking.stakingStart : Nat) : Int)
  if (i128Min ≤ rate ∧ rate ≤ i128Max) ∧ i128Min ≤ product ∧ product ≤ i128Max then
    product.tdiv (10000 * 365 * 86400)
  else 0

/-- The part of the yield that goes to the beneficiary. -/
def YieldDistributionMode.beneficiaryPart (mode : YieldDistributionMode) (amount : Int) : Int :=
  match mode with
  | .distributeToBeneficiary => amount
  | .reinvest => 0
  | .split bps =>
      if i128Min ≤ amount * bps ∧ amount * bps ≤ i128Max then (amount * bps).tdiv 10000 else 0

def distributeYield (vaultId : Nat) : Contract Unit := do
  let vault ← loadVault vaultId
  let staking : TokenStaking ←
    fromSome (← storageGet (.tokenStaking vaultId)) (.error .invalidAmount)
  let config : YieldDistributionConfig ←
    fromSome (← storageGet (.yieldDistributionConfig vaultId)) (.error .invalidAmount)
  require (staking.isActive = true) .invalidAmount
  let now ← timestamp
  let amount := staking.yieldAmount now
  onlyIf (0 < amount) do
    let paid := config.mode.beneficiaryPart amount
    let reinvested := max (clampI128 (amount - paid)) 0
    payShare vault.tokenAddress vault.beneficiary paid
    let distributed := orOverflow (config.totalDistributed + max paid 0) config.totalDistributed
    storageSet (.yieldDistributionConfig vaultId)
      { config with
        lastDistribution := now
        totalDistributed := distributed
        totalReinvested := orOverflow (config.totalReinvested + reinvested) config.totalReinvested }
    saveVault vaultId
      (vault.withBalance (orOverflow (vault.balance + reinvested) vault.balance))

/-- The entry points about vesting and yield. -/
inductive VestingCall
  | setVestingSchedule (vaultId : Nat) (caller : Address)
      (startTime interval numInstallments : Nat) (amount : Int) (cliffPeriod : Nat)
  | cancelVestingSchedule (vaultId scheduleId : Nat) (caller : Address)
  | setVestingPenalty (vaultId : Nat) (caller : Address) (penaltyBps gracePeriod : Nat)
  | initiateVestingClaim (vaultId reversalWindowSeconds : Nat)
  | reverseVestingClaim (vaultId : Nat) (caller : Address)
  | finalizeVestingClaim (vaultId : Nat)
  | claimVestedInstallment (vaultId : Nat)
  | setVestingCatchup (vaultId : Nat) (caller : Address) (enabled : Bool)
      (maxCatchupInstallments : Nat)
  | claimCatchupVesting (vaultId : Nat)
  | setVestingBonus (vaultId : Nat) (caller : Address) (bonusBps onTimeWindowSeconds : Nat)
  | claimWithBonus (vaultId : Nat)
  | clawbackUnvested (vaultId : Nat) (caller : Address)
  | setMilestoneVesting (vaultId : Nat) (caller : Address) (milestones : List MilestoneEntry)
      (oracle : Address)
  | pauseMilestoneVesting (vaultId : Nat) (caller : Address)
  | resumeMilestoneVesting (vaultId : Nat) (caller : Address)
  | adjustMilestoneTargets (vaultId : Nat) (caller : Address) (adjustments : List (Nat × Int))
  | emergencyFulfillMilestones (vaultId : Nat) (caller : Address) (indices : List Nat)
  | reportMilestoneProgress (vaultId : Nat) (indices : List Nat) (currentValues : List Int)
  | claimMilestoneInstallments (vaultId : Nat)
  | setVestingRollover (vaultId : Nat) (caller : Address) (enabled : Bool)
  | setVestingForfeiture (vaultId : Nat) (caller forfeitureRecipient : Address)
  | setVestingAcceleration (vaultId : Nat) (caller oracle : Address)
  | accelerateVesting (vaultId : Nat) (caller : Address)
  | setVestingStagger (vaultId : Nat) (caller : Address) (entries : List VestingStaggerEntry)
  | claimStaggeredVesting (vaultId : Nat) (caller : Address)
  | setBeneficiaryVesting (vaultId : Nat) (caller beneficiary : Address)
      (startTime interval numInstallments cliffPeriod : Nat)
  | claimBeneficiaryVesting (vaultId : Nat) (beneficiary : Address)
  | enableTokenStaking (vaultId : Nat) (stakingPool : Address) (annualYieldBps : Nat)
  | disableTokenStaking (vaultId : Nat)
  | setYieldDistribution (vaultId : Nat) (mode : YieldDistributionMode)
  | distributeYield (vaultId : Nat)

def execVesting : VestingCall → Contract Unit
  | .setVestingSchedule v c t i n x p => do let _ ← setVestingSchedule v c t i n x p
  | .cancelVestingSchedule v i c => cancelVestingSchedule v i c
  | .setVestingPenalty v c b g => setVestingPenalty v c b g
  | .initiateVestingClaim v w => do let _ ← initiateVestingClaim v w
  | .reverseVestingClaim v c => reverseVestingClaim v c
  | .finalizeVestingClaim v => do let _ ← finalizeVestingClaim v
  | .claimVestedInstallment v => do let _ ← claimVestedInstallment v
  | .setVestingCatchup v c b n => setVestingCatchup v c b n
  | .claimCatchupVesting v => do let _ ← claimCatchupVesting v
  | .setVestingBonus v c b w => setVestingBonus v c b w
  | .claimWithBonus v => do let _ ← claimWithBonus v
  | .clawbackUnvested v c => do let _ ← clawbackUnvested v c
  | .setMilestoneVesting v c ms o => setMilestoneVesting v c ms o
  | .pauseMilestoneVesting v c => pauseMilestoneVesting v c
  | .resumeMilestoneVesting v c => resumeMilestoneVesting v c
  | .adjustMilestoneTargets v c as => adjustMilestoneTargets v c as
  | .emergencyFulfillMilestones v c is => emergencyFulfillMilestones v c is
  | .reportMilestoneProgress v is xs => reportMilestoneProgress v is xs
  | .claimMilestoneInstallments v => do let _ ← claimMilestoneInstallments v
  | .setVestingRollover v c b => setVestingRollover v c b
  | .setVestingForfeiture v c a => setVestingForfeiture v c a
  | .setVestingAcceleration v c o => setVestingAcceleration v c o
  | .accelerateVesting v c => accelerateVesting v c
  | .setVestingStagger v c es => setVestingStagger v c es
  | .claimStaggeredVesting v c => do let _ ← claimStaggeredVesting v c
  | .setBeneficiaryVesting v c b t i n p => setBeneficiaryVesting v c b t i n p
  | .claimBeneficiaryVesting v b => do let _ ← claimBeneficiaryVesting v b
  | .enableTokenStaking v a n => enableTokenStaking v a n
  | .disableTokenStaking v => disableTokenStaking v
  | .setYieldDistribution v m => setYieldDistribution v m
  | .distributeYield v => distributeYield v

/-! ## Rules -/

section Rules

variable {e : Env} {s : State} {id : Nat} {v : Vault} {schedule : VestingSchedule}

@[simp ↓] theorem wp_totalScheduled {count : Nat} {amount : Int} {Q : Int → State → Prop} :
    wp (totalScheduled id count amount) Q e s ↔
      ∀ x, totalScheduled id count amount e s = .ok (x, s) → Q x s :=
  Tx.ReadOnly.wp_iff fun e s => Tx.wp_foldEach (I := fun _ t => t = s)
    (fun i _ total t ht => by subst ht; simp) rfl

@[simp ↓] theorem wp_unclaimed {Q : Int → State → Prop} :
    wp schedule.unclaimed Q e s ↔ ∀ x, schedule.unclaimed e s = .ok (x, s) → Q x s :=
  Tx.ReadOnly.wp_iff fun _ _ => by simp [VestingSchedule.unclaimed]

theorem ok_unlockedInstallments {t : State} {now start interval num n : Nat} :
    unlockedInstallments now start interval num e s = .ok (n, t) ↔
      (interval ≠ 0 ∧ (now - start) / interval + 1 ≤ u64Max) ∧
        n = min num ((now - start) / interval + 1) ∧ s = t := by
  simp only [unlockedInstallments, Tx.ok_bind, ok_divU, ok_u64, Tx.ok_pure]
  constructor
  · rintro ⟨_, _, ⟨hne, rfl, rfl⟩, _, _, ⟨hle, rfl, rfl⟩, rfl, rfl⟩
    exact ⟨⟨hne, hle⟩, min_comm _ _, rfl⟩
  · rintro ⟨⟨hne, hle⟩, rfl, rfl⟩
    exact ⟨_, _, ⟨hne, rfl, rfl⟩, _, _, ⟨hle, rfl, rfl⟩, min_comm _ _, rfl⟩

@[simp ↓] theorem wp_unlockedInstallments {now start interval num : Nat}
    {Q : Nat → State → Prop} :
    wp (unlockedInstallments now start interval num) Q e s ↔
      ∀ n, unlockedInstallments now start interval num e s = .ok (n, s) → Q n s :=
  Tx.ReadOnly.wp_iff fun _ _ => by simp [unlockedInstallments]

@[simp ↓] theorem wp_loadClaimSchedule {Q : VestingSchedule → State → Prop} :
    wp (loadClaimSchedule id) Q e s ↔
      ∀ x, s.get (.vestingSchedule id 0) = some x →
        x.claimedInstallments < x.numInstallments → x.startTime ≤ e.timestamp → Q x s := by
  simp [loadClaimSchedule]

@[simp ↓] theorem wp_assertCliffReached {Q : Unit → State → Prop} :
    wp (assertCliffReached schedule) Q e s ↔
      ∀ u, assertCliffReached schedule e s = .ok (u, s) → Q u s :=
  Tx.ReadOnly.wp_iff fun _ _ => by simp [assertCliffReached]

@[simp ↓] theorem wp_installmentAmount {unlocked claimable : Nat} {Q : Int → State → Prop} :
    wp (installmentAmount v schedule unlocked claimable) Q e s ↔
      ∀ x, installmentAmount v schedule unlocked claimable e s = .ok (x, s) → Q x s :=
  Tx.ReadOnly.wp_iff fun _ _ => by simp [installmentAmount]

@[simp ↓] theorem wp_penalizedAmount {penalty : VestingPenaltyConfig} {unlocked claimable : Nat}
    {base : Int} {Q : Int → State → Prop} :
    wp (penalizedAmount v schedule penalty unlocked claimable base) Q e s ↔
      ∀ x, penalizedAmount v schedule penalty unlocked claimable base e s = .ok (x, s) → Q x s :=
  Tx.ReadOnly.wp_iff fun _ _ => by simp [penalizedAmount]

@[simp ↓] theorem wp_unlockedForClaim {Q : Nat → State → Prop} :
    wp (unlockedForClaim id schedule) Q e s ↔
      ∀ n, unlockedForClaim id schedule e s = .ok (n, s) → Q n s :=
  Tx.ReadOnly.wp_iff fun _ _ => by simp [unlockedForClaim]

@[simp ↓] theorem wp_totalUnvested {count : Nat} {Q : Int → State → Prop} :
    wp (totalUnvested id count) Q e s ↔
      ∀ x, totalUnvested id count e s = .ok (x, s) → Q x s :=
  Tx.ReadOnly.wp_iff fun e s => Tx.wp_foldEach (I := fun _ t => t = s)
    (fun i _ total t ht => by subst ht; simp) rfl

theorem readOnly_allOnTime {now window : Nat} {times : List Nat} :
    Tx.ReadOnly (allOnTime now window times) := by
  intro e s
  induction times with
  | nil => simp [allOnTime]
  | cons unlockTime times ih => simp [allOnTime, ih]

@[simp ↓] theorem wp_allOnTime {now window : Nat} {times : List Nat} {Q : Bool → State → Prop} :
    wp (allOnTime now window times) Q e s ↔
      ∀ b, allOnTime now window times e s = .ok (b, s) → Q b s :=
  readOnly_allOnTime.wp_iff

theorem readOnly_milestoneClaim {ms : MilestoneVestingSchedule} : Tx.ReadOnly (milestoneClaim ms) :=
  fun e s => Tx.wp_foldEach (I := fun _ t => t = s)
    (fun m _ total t ht => by subst ht; simp [milestoneRound]) rfl

@[simp ↓] theorem wp_milestoneClaim {ms : MilestoneVestingSchedule} {Q : Int → State → Prop} :
    wp (milestoneClaim ms) Q e s ↔ ∀ x, milestoneClaim ms e s = .ok (x, s) → Q x s :=
  readOnly_milestoneClaim.wp_iff

@[simp ↓] theorem wp_loadMilestonesByOwner {caller : Address}
    {Q : MilestoneVestingSchedule → State → Prop} :
    wp (loadMilestonesByOwner id caller) Q e s ↔
      ((s.get .paused).getD false = false → e.authorized caller = true → ∀ v,
        s.vault id = some v → caller = v.owner → ∀ ms,
          s.get (.milestoneVestingSchedule id) = some ms → Q ms s) := by
  simp [loadMilestonesByOwner]

/-- What was rolled over is added to the amount and cleared. -/
theorem wp_addRollover {amount : Int} {Q : Int → State → Prop}
    (h : ∀ x t, amount ≤ x → (∀ k, k ≠ .vestingRollover id → t.get k = s.get k) →
      t.ledger = s.ledger → Frame ⟨[id], [], [.rollover]⟩ s t → Q x t) :
    wp (addRollover id amount) Q e s := by
  have hsame : Q amount s := h amount s le_rfl (fun _ _ => rfl) rfl .refl
  simp only [addRollover, Tx.wp_bind, wp_storageGet, Tx.wp_ifSomeElse, Tx.wp_ite, wp_i128,
    wp_storageSet, Tx.wp_pure]
  refine ⟨fun config _ => ⟨fun hrolled _ => ?_, fun _ => hsame⟩, fun _ => hsame⟩
  exact h _ _ (by omega) (fun k hk => State.get_put_of_ne hk) rfl (by simp)

/-- The state after a claim of `amount` that leaves `claimed` installments claimed. -/
def State.afterClaim (s : State) (id : Nat) (v : Vault) (schedule : VestingSchedule)
    (amount : Int) (claimed : Nat) : State :=
  ((s.transferAll (v.heirsLog amount)).put (.vault id)
    (v.withBalance (v.balance - amount))).put (.vestingSchedule id 0)
      { schedule with claimedInstallments := claimed }

theorem wp_payClaim {amount : Int} {claimed : Nat} {Q : Unit → State → Prop}
    (h : Fair v.tokenAddress (v.heirsLog amount) →
      Q () (s.afterClaim id v schedule amount claimed)) :
    wp (payClaim id v schedule amount claimed) Q e s := by
  simp only [payClaim, Tx.wp_bind]
  refine wp_payHeirs fun hfair => ?_
  simp only [wp_i128, wp_saveVault, wp_storageSet]
  exact fun _ => h hfair

theorem afterClaim_transacts {amount : Int} {claimed : Nat} (hv : s.vault id = some v)
    (hfair : Fair v.tokenAddress (v.heirsLog amount)) :
    Transacts id v (v.withBalance (v.balance - amount)) (v.heirsLog amount) s
      (s.afterClaim id v schedule amount claimed) :=
  (Transacts.put_iff (by simp)).mpr (.save hv (fun _ => rfl) rfl hfair rfl)

theorem afterClaim_frame {amount : Int} {claimed : Nat} (hv : s.vault id = some v) :
    Frame ⟨[id], [.balance, .funds], [.schedules, .rollover]⟩ s
      (s.afterClaim id v schedule amount claimed) := by
  simp [State.afterClaim, hv, Vault.agreeOff_iff]

end Rules

end Heirloom
