import Heirloom.Sbt.Contract

/-!
# Who holds a token

Three calls change the owner of a token: the mint, the conditional transfer of a batch
and the recovery with a code. What else is attached to a token lives under keys of its
own: the delegation, the recovery codes, the escrow and the fractions.
-/

namespace Heirloom.Sbt

open Transaction TypedStore

def recoveryCodeCount : Nat := 5
def recoveryMaxAttempts : Nat := 5
def recoveryAttemptWindowSeconds : Nat := 3600

def saturatingAdd (a b : Nat) : Nat := min (a + b) u64Max

/-! ## Fractions -/

def pushOwnershipHistory (id : Nat) (entry : OwnershipHistoryEntry) : Contract Unit := do
  let history : Option (List OwnershipHistoryEntry) ← storageGet (.ownershipHistory id)
  storageSet (.ownershipHistory id) (history.getD [] ++ [entry])

def isFractional (id : Nat) : Contract Bool := do
  let found ← storageGet (.fractionalOwnership id)
  pure found.isSome

/-- Records the holders of a token and their fractions; the owner alone decides. -/
def createFractionalSbt (id : Nat) (holders : List Address) (fractions : List Nat) :
    Contract Nat := do
  let _ ← requireOwner id
  ensure (holders.length = fractions.length) (.error .mismatchedOwnershipArrays)
  ensure (holders ≠ []) (.error .emptyBatch)
  ensure (fractions.foldl saturatingAdd 0 = 10000) (.error .invalidFractionSum)
  let now ← ask (·.timestamp)
  storageSet (.fractionalOwnership id) ⟨id, holders, fractions, now⟩
  Tx.forEach (holders.zip fractions) fun p =>
    pushOwnershipHistory id ⟨id, p.1, p.2, .created, now⟩
  pure id

/-! ## Escrow -/

/-- Places a token in escrow; the record stays when the escrow is released. -/
def escrowSbt (id : Nat) (escrowAgent : Address) (conditions : Bytes) : Contract Nat := do
  let _ ← requireOwner id
  let present ← storageGet (.escrow id)
  ensure (present = none) (.error .alreadyInEscrow)
  let next : Option Nat ← storageGet .nextEscrowId
  let escrowId := next.getD 0
  ensure (escrowId + 1 ≤ u64Max) .trap
  storageSet .nextEscrowId (escrowId + 1)
  let now ← ask (·.timestamp)
  storageSet (.escrow id) ⟨escrowId, id, escrowAgent, conditions, now, false⟩
  pure escrowId

def releaseSbtFromEscrow (id : Nat) (proof : Bytes) : Contract Unit := do
  let escrow ← storageGet (.escrow id)
  let escrow ← fromSome escrow (.error .notInEscrow)
  requireAuth escrow.escrowAgent
  ensure (proof ≠ []) (.error .escrowConditionsNotMet)
  storageSet (.escrow id) { escrow with released := true }

/-- What the validation of a batch has met. -/
structure ReleaseBatch where
  seenIds : List Nat
  authorizedAgents : List Address
  escrows : List EscrowRecord

/-- One round of the validation; an agent signs once for all its escrows. -/
def validateRelease (batch : ReleaseBatch) (credentialId : Nat) : Contract ReleaseBatch := do
  ensure (credentialId ∉ batch.seenIds) (.error .duplicateCredentialId)
  let escrow ← storageGet (.escrow credentialId)
  let escrow ← fromSome escrow (.error .notInEscrow)
  ensure (escrow.released = false) (.error .credentialAlreadyReleased)
  Tx.onlyIf (escrow.escrowAgent ∉ batch.authorizedAgents) do requireAuth escrow.escrowAgent
  pure ⟨batch.seenIds ++ [credentialId], batch.authorizedAgents ++ [escrow.escrowAgent],
    batch.escrows ++ [escrow]⟩

/-- Releases the escrows of a batch, all or none. -/
def atomicReleaseCredentials (credentialIds : List Nat) : Contract (List Bool) := do
  ensure (credentialIds ≠ []) (.error .emptyBatch)
  let batch ← Tx.foldEach credentialIds ⟨[], [], []⟩ validateRelease
  Tx.forEach batch.escrows fun escrow =>
    storageSet (.escrow escrow.sbtId) { escrow with released := true }
  pure (batch.escrows.map fun _ => true)

/-! ## Delegation -/

def pushDelegationHistory (id : Nat) (entry : DelegationHistoryEntry) : Contract Unit := do
  let history : Option (List DelegationHistoryEntry) ← storageGet (.delegationHistory id)
  storageSet (.delegationHistory id) (history.getD [] ++ [entry])

def delegateSbtTemporarily (id : Nat) (delegate : Address) (durationSeconds : Nat) :
    Contract Unit := do
  let owner ← requireOwner id
  ensure (durationSeconds ≠ 0) (.error .invalidDuration)
  ensure (delegate ≠ owner) (.error .selfDelegation)
  let now ← ask (·.timestamp)
  let expiresAt := saturatingAdd now durationSeconds
  storageSet (.delegation id) ⟨delegate, now, expiresAt⟩
  pushDelegationHistory id ⟨delegate, .delegated, now, expiresAt⟩

def revokeSbtDelegation (id : Nat) : Contract Unit := do
  let _ ← requireOwner id
  let record ← storageGet (.delegation id)
  let record ← fromSome record (.error .noActiveDelegation)
  remove (.delegation id)
  let now ← ask (·.timestamp)
  pushDelegationHistory id ⟨record.delegate, .revoked, now, record.expiresAt⟩

/-- The delegate, unless the delegation has expired. -/
def getActiveDelegate (id : Nat) : Contract (Option Address) := do
  let record : Option DelegationRecord ← storageGet (.delegation id)
  let now ← ask (·.timestamp)
  pure (record.bind fun record => if now < record.expiresAt then some record.delegate else none)

/-! ## Transfer -/

/-- The condition of one transfer of a batch. -/
inductive TransferCondition
  | always
  | minHoldSeconds (minSeconds : Nat)
  | noActiveDelegation
deriving DecidableEq

structure TransferInstruction where
  recipient : Address
  condition : TransferCondition
deriving DecidableEq

def hasActiveDelegation (id : Nat) : Contract Bool := do
  let record : Option DelegationRecord ← storageGet (.delegation id)
  let now ← ask (·.timestamp)
  pure ((record.map fun record => decide (now < record.expiresAt)).getD false)

def evaluateCondition (id : Nat) : TransferCondition → Contract Bool
  | .always => pure true
  | .minHoldSeconds minSeconds => do
      let mintedAt : Option Nat ← storageGet (.mintedAt id)
      let now ← ask (·.timestamp)
      pure (decide (minSeconds ≤ now - mintedAt.getD 0))
  | .noActiveDelegation => do
      let active ← hasActiveDelegation id
      pure (!active)

/-- One round of the checks of a batch. -/
def checkTransfer (id : Nat) (instruction : TransferInstruction) : Contract Unit := do
  let _ ← requireOwner id
  let met ← evaluateCondition id instruction.condition
  ensure (met = true) (.error .transferConditionNotMet)

/-- One round of the writes of a batch; the delegation of the previous owner ends. -/
def applyTransfer (id : Nat) (instruction : TransferInstruction) : Contract Unit := do
  storageSet (.owner id) instruction.recipient
  remove (.delegation id)

/-- Transfers the tokens, each under its own condition, all or none. -/
def batchTransferSbtConditional (ids : List Nat) (transfers : List TransferInstruction) :
    Contract Unit := do
  ensure (ids.length = transfers.length) (.error .mismatchedBatchLengths)
  ensure (ids ≠ []) (.error .emptyBatch)
  Tx.forEach (ids.zip transfers) fun p => checkTransfer p.1 p.2
  Tx.forEach (ids.zip transfers) fun p => applyTransfer p.1 p.2

/-! ## Recovery -/

/-- New recovery codes for a token; only their hashes are kept. -/
def generateSbtRecoveryCodes (id : Nat) : Contract (List Bytes32) := do
  let _ ← requireOwner id
  let codes ← ask fun e => (List.range recoveryCodeCount).map e.random
  let hashedCodes ← ask fun e => codes.map fun code => e.sha256 code.toList
  storageSet (.recoveryCodes id) hashedCodes
  pure codes

/-- The window that an attempt counts in. -/
def attemptWindow (now : Nat) (stored : Option RecoveryAttemptState) : RecoveryAttemptState :=
  let state := stored.getD ⟨0, now⟩
  if recoveryAttemptWindowSeconds ≤ now - state.windowStart then ⟨0, now⟩ else state

/-- Counts the attempt, and stops the call when the window has had enough of them. -/
def enforceRecoveryRateLimit (id : Nat) : Contract Unit := do
  let now ← ask (·.timestamp)
  let stored : Option RecoveryAttemptState ← storageGet (.recoveryAttempts id)
  let state := attemptWindow now stored
  ensure (state.attemptCount < recoveryMaxAttempts) (.error .recoveryRateLimited)
  storageSet (.recoveryAttempts id) { state with attemptCount := state.attemptCount + 1 }

/-- Gives the token to `newHolder` for an unused recovery code; false if the code is not
one. -/
def recoverSbtWithRecoveryCode (id : Nat) (recoveryCode : Bytes) (newHolder : Address) :
    Contract Bool := do
  requireAuth newHolder
  let _ ← loadOwner id
  let fractional ← isFractional id
  ensure (fractional = false) (.error .fractionalOwnershipExists)
  enforceRecoveryRateLimit id
  let stored ← storageGet (.recoveryCodes id)
  let hashedCodes ← fromSome stored (.error .noRecoveryCodes)
  let submittedHash ← ask fun e => e.sha256 recoveryCode
  if submittedHash ∉ hashedCodes then pure false
  else do
    storageSet (.recoveryCodes id) (hashedCodes.erase submittedHash)
    storageSet (.owner id) newHolder
    remove (.delegation id)
    pure true

/-! ## What the calls do -/

section Specs

variable {e : Env} {s t : State} {id id' : Nat} {owner : Address}

theorem wp_isFractional {Q : Bool → State → Prop} :
    wp (isFractional id) Q e s ↔ Q (s.get (.fractionalOwnership id)).isSome s := by
  simp only [isFractional, Tx.wp_bind, Tx.wp_pure, wp_load]

theorem readOnly_evaluateCondition {condition : TransferCondition} :
    Tx.ReadOnly (evaluateCondition id condition) := by
  intro e s
  cases condition <;> simp [evaluateCondition, hasActiveDelegation]

theorem readOnly_checkTransfer {instruction : TransferInstruction} :
    Tx.ReadOnly (checkTransfer id instruction) := by
  intro e s
  simp [checkTransfer, readOnly_evaluateCondition.wp_iff]

theorem readOnly_validateRelease {batch : ReleaseBatch} :
    Tx.ReadOnly (validateRelease batch id) :=
  fun _ _ => by simp [validateRelease]

/-- The state after one transfer. -/
def transferred (s : State) (p : Nat × TransferInstruction) : State :=
  (s.put (.owner p.1) p.2.recipient).erase (.delegation p.1)

/-- The owner that the transfers give a token; the last one counts. -/
def destination : List (Nat × TransferInstruction) → Nat → Option Address
  | [], _ => none
  | p :: ps, id => (destination ps id).or (if p.1 = id then some p.2.recipient else none)

theorem checkTransfer_wp {instruction : TransferInstruction} :
    wp (checkTransfer id instruction) (fun _ t => t = s ∧ ∃ owner,
      s.get (.owner id) = some owner ∧ e.authorized owner = true) e s := by
  simp only [checkTransfer, Tx.wp_bind, Tx.wp_ensure, wp_requireOwner,
    readOnly_evaluateCondition.wp_iff]
  exact fun owner howner hauth _ _ _ => ⟨trivial, owner, howner, hauth⟩

/-- A batch applies all its transfers, of tokens whose owners have signed. -/
theorem batchTransferSbtConditional_wp {ids : List Nat} {transfers : List TransferInstruction} :
    wp (batchTransferSbtConditional ids transfers) (fun _ t =>
      t = (ids.zip transfers).foldl transferred s ∧ ∀ p ∈ ids.zip transfers, ∃ owner,
        s.get (.owner p.1) = some owner ∧ e.authorized owner = true) e s := by
  simp only [batchTransferSbtConditional, Tx.wp_bind, Tx.wp_ensure]
  intro _ _
  refine Tx.wp_mono (Tx.wp_forEach_checks fun p => checkTransfer_wp) ?_
  rintro _ _ ⟨rfl, hsigned⟩
  refine Tx.wp_mono (Tx.wp_forEach_foldl (g := transferred) (C := fun _ => True) ?_) ?_
  · intro p t
    simp [applyTransfer, transferred]
  · rintro _ t ⟨ht, -⟩
    exact ⟨ht, hsigned⟩

theorem get_foldl_transferred {ps : List (Nat × TransferInstruction)} {k : DataKey}
    (howner : ∀ id, k ≠ .owner id) (hdelegation : ∀ id, k ≠ .delegation id) :
    Store.get (ps.foldl transferred s) k = s.get k := by
  induction ps generalizing s with
  | nil => rfl
  | cons p ps ih =>
      rw [List.foldl_cons, ih, transferred, Store.get_erase_of_ne (hdelegation p.1),
        Store.get_put_of_ne (howner p.1)]

theorem get_owner_foldl_transferred {ps : List (Nat × TransferInstruction)} :
    Store.get (ps.foldl transferred s) (.owner id) =
      (destination ps id).or (s.get (.owner id)) := by
  induction ps generalizing s with
  | nil => rfl
  | cons p ps ih =>
      rw [List.foldl_cons, ih, transferred, Store.get_erase_of_ne (by simp), destination,
        Option.or_assoc]
      by_cases heq : p.1 = id
      · rw [if_pos heq, ← heq, Store.get_put_self]
        rfl
      · rw [if_neg heq, Store.get_put_of_ne (by simpa using Ne.symm heq)]
        rfl

theorem get_delegation_foldl_transferred {ps : List (Nat × TransferInstruction)} :
    Store.get (ps.foldl transferred s) (.delegation id) =
      if id ∈ ps.map (·.1) then none else s.get (.delegation id) := by
  induction ps generalizing s with
  | nil => rfl
  | cons p ps ih =>
      rw [List.foldl_cons, ih, List.map_cons]
      by_cases hlater : id ∈ ps.map (·.1)
      · rw [if_pos hlater, if_pos (List.mem_cons_of_mem _ hlater)]
      · rw [if_neg hlater, transferred]
        by_cases heq : id = p.1
        · rw [heq, Store.get_erase_self, if_pos List.mem_cons_self]
        · have hout : id ∉ p.1 :: ps.map (·.1) := fun h => (List.mem_cons.mp h).elim heq hlater
          rw [Store.get_erase_of_ne (by simpa using heq), Store.get_put_of_ne (by simp),
            if_neg hout]

/-- A destination is one of a transfer. -/
theorem destination_eq_some {ps : List (Nat × TransferInstruction)}
    {recipient : Address} (h : destination ps id = some recipient) :
    ∃ p ∈ ps, p.1 = id ∧ p.2.recipient = recipient := by
  induction ps with
  | nil => cases h
  | cons p ps ih =>
      rw [destination, Option.or_eq_some_iff] at h
      rcases h with hlater | ⟨-, hhead⟩
      · obtain ⟨q, hq, hqid⟩ := ih hlater
        exact ⟨q, List.mem_cons_of_mem p hq, hqid⟩
      · split at hhead
        · next heq => exact ⟨p, List.mem_cons_self, heq, Option.some.inj hhead⟩
        · cases hhead

/-- The token `id` has been recovered with a code of the given hash. -/
def recovered (s : State) (id : Nat) (attempts : RecoveryAttemptState) (codes : List Bytes32)
    (hash : Bytes32) (newHolder : Address) : State :=
  (((s.put (.recoveryAttempts id) attempts).put (.recoveryCodes id) (codes.erase hash)).put
    (.owner id) newHolder).erase (.delegation id)

section Recovered

variable {attempts : RecoveryAttemptState} {codes : List Bytes32} {hash : Bytes32}
  {newHolder : Address}

theorem get_owner_recovered :
    (recovered s id attempts codes hash newHolder).get (.owner id') =
      if id' = id then some newHolder else s.get (.owner id') := by
  unfold recovered
  rw [Store.get_erase_of_ne (by simp)]
  split
  · next heq => rw [heq, Store.get_put_self]
  · next hne => simp [hne]

theorem get_codes_recovered :
    (recovered s id attempts codes hash newHolder).get (.recoveryCodes id') =
      if id' = id then some (codes.erase hash) else s.get (.recoveryCodes id') := by
  unfold recovered
  rw [Store.get_erase_of_ne (by simp), Store.get_put_of_ne (by simp)]
  split
  · next heq => rw [heq, Store.get_put_self]
  · next hne => simp [hne]

theorem get_delegation_recovered :
    (recovered s id attempts codes hash newHolder).get (.delegation id') =
      if id' = id then none else s.get (.delegation id') := by
  unfold recovered
  split
  · next heq => rw [heq, Store.get_erase_self]
  · next hne => simp [hne]

end Recovered

/-- What an attempt does that is not refused: with a code whose hash is stored it uses the
code and changes the owner, with another it only counts. -/
structure Attempt (e : Env) (s t : State) (id : Nat) (code : Bytes) (newHolder : Address)
    (b : Bool) : Prop where
  signed : e.authorized newHolder = true
  owned : s.get (.owner id) ≠ none
  undivided : s.get (.fractionalOwnership id) = none
  effect : ∃ codes attempts, s.get (.recoveryCodes id) = some codes ∧
    (b = false ∧ e.sha256 code ∉ codes ∧ t = s.put (.recoveryAttempts id) attempts ∨
      b = true ∧ e.sha256 code ∈ codes ∧
        t = recovered s id attempts codes (e.sha256 code) newHolder)

theorem recoverSbtWithRecoveryCode_wp {code : Bytes} {newHolder : Address} :
    wp (recoverSbtWithRecoveryCode id code newHolder)
      (fun b t => Attempt e s t id code newHolder b) e s := by
  simp only [recoverSbtWithRecoveryCode, enforceRecoveryRateLimit, Tx.wp_bind, Tx.wp_ensure,
    Tx.wp_ask, Tx.wp_fromSome, Tx.wp_ite, Tx.wp_pure, wp_requireAuth, wp_loadOwner,
    wp_isFractional, wp_load, wp_save, wp_remove]
  intro hsigned owner howner hfractional _ codes hcodes
  have hundivided : s.get (.fractionalOwnership id) = none :=
    Option.isNone_iff_eq_none.mp (Option.isSome_eq_false_iff.mp hfractional)
  rw [Store.get_put_of_ne (by simp)] at hcodes
  have howned : s.get (.owner id) ≠ none := by simp [howner]
  refine ⟨fun hnew => ⟨hsigned, howned, hundivided, codes, _, hcodes, .inl ⟨rfl, hnew, rfl⟩⟩,
    fun hknown => ⟨hsigned, howned, hundivided, codes, _, hcodes, .inr ⟨rfl, ?_, rfl⟩⟩⟩
  exact Decidable.not_not.mp hknown

/-- The first attempt, and one after the window, are counted. -/
theorem enforceRecoveryRateLimit_ok
    (hwindow : ∀ attempts, s.get (.recoveryAttempts id) = some attempts →
      recoveryAttemptWindowSeconds ≤ e.timestamp - attempts.windowStart) :
    enforceRecoveryRateLimit id e s =
      .ok ((), s.put (.recoveryAttempts id) ⟨1, e.timestamp⟩) := by
  have hstate : attemptWindow e.timestamp (s.get (.recoveryAttempts id)) = ⟨0, e.timestamp⟩ := by
    unfold attemptWindow
    cases hstored : s.get (.recoveryAttempts id) with
    | none => simp
    | some attempts => exact if_pos (hwindow attempts hstored)
  rw [enforceRecoveryRateLimit, Tx.bind_of_ok (Tx.ok_ask.mpr ⟨rfl, rfl⟩),
    Tx.bind_of_ok (ok_load.mpr ⟨rfl, rfl⟩), hstate]
  rfl

/-- A signed attempt with a code whose hash is stored is not refused when the window is
over. -/
theorem recoverSbtWithRecoveryCode_ok {code : Bytes} {newHolder : Address} {codes : List Bytes32}
    (hsigned : e.authorized newHolder = true) (howned : s.get (.owner id) ≠ none)
    (hundivided : s.get (.fractionalOwnership id) = none)
    (hcodes : s.get (.recoveryCodes id) = some codes) (hknown : e.sha256 code ∈ codes)
    (hwindow : ∀ attempts, s.get (.recoveryAttempts id) = some attempts →
      recoveryAttemptWindowSeconds ≤ e.timestamp - attempts.windowStart) :
    recoverSbtWithRecoveryCode id code newHolder e s =
      .ok (true, recovered s id ⟨1, e.timestamp⟩ codes (e.sha256 code) newHolder) := by
  obtain ⟨owner, howner⟩ := Option.ne_none_iff_exists'.mp howned
  have hfractional : isFractional id e s = .ok (false, s) := by
    rw [isFractional, Tx.bind_of_ok (ok_load.mpr ⟨hundivided, rfl⟩)]
    rfl
  have hload : loadOwner id e s = .ok (owner, s) := by
    rw [loadOwner, Tx.bind_of_ok (ok_load.mpr ⟨howner, rfl⟩)]
    rfl
  have hstored : Store.get (s.put (.recoveryAttempts id) ⟨1, e.timestamp⟩) (.recoveryCodes id) =
      some codes := by
    rw [Store.get_put_of_ne (by simp), hcodes]
  rw [recoverSbtWithRecoveryCode, Tx.bind_of_ok (ok_requireAuth (u := ()).mpr ⟨hsigned, rfl⟩),
    Tx.bind_of_ok hload, Tx.bind_of_ok hfractional,
    Tx.bind_of_ok (Tx.ok_ensure (u := ()).mpr ⟨rfl, rfl⟩),
    Tx.bind_of_ok (enforceRecoveryRateLimit_ok hwindow),
    Tx.bind_of_ok (ok_load.mpr ⟨hstored, rfl⟩),
    Tx.bind_of_ok (Tx.ok_fromSome.mpr ⟨rfl, rfl⟩), Tx.bind_of_ok (Tx.ok_ask.mpr ⟨rfl, rfl⟩),
    if_neg (Decidable.not_not.mpr hknown)]
  rfl

end Specs

end Heirloom.Sbt
