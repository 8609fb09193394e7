import Mathlib.Data.List.AList
import Heirloom.Modules.Host

/-!
# Slice consensus voting

A modification of a slice is proposed, voted on by the registered attestors, resolved
and, if approved, executed. A proposal keeps the size that the electorate had when it
was made; the registry can be replaced at any time.

Results:
1. `votes_decided`: votes are counted once and within the electorate, approvals are
   by half of it, decisions are on time and executions recorded once, in every run in
   which no vote goes beyond the electorate, nothing is resolved before its time and no
   number is given out twice; any other such step violates one of these.
2. `votes_undecided`: one vote of four decides at once; and a registry that has grown
   lets more attestors vote than there were.
-/

namespace Heirloom.Modules.Voting

open Transaction TypedStore Runs

/-! ## Constants and records -/

/-- Seven days. -/
def defaultVotingPeriod : Nat := 604800

def defaultMinQuorum : Nat := 1

structure VotingConfig where
  /-- The number of votes below which nothing is resolved. -/
  minQuorum : Nat
deriving DecidableEq

inductive ProposalStatus
  | pending | approved | rejected | executed
deriving DecidableEq

/-- What can be changed about a slice. -/
inductive SliceModification
  | updateMetadata (tag : Nat)
  | updateRules (ruleIdsLen : Nat)
  | reweightAttestors (attestorAddressesLen : Nat)
deriving DecidableEq

structure ModificationProposal where
  sliceId : Nat
  proposalId : Nat
  proposedChanges : Bytes
  proposer : Address
  status : ProposalStatus
  votingDeadline : Nat
  approveCount : Nat
  rejectCount : Nat
  /-- The size of the electorate when the proposal was made. -/
  totalAttestors : Nat
  createdAt : Nat
deriving DecidableEq

/-- An executed modification. -/
structure ModificationRecord where
  proposalId : Nat
  proposedChanges : Bytes
  proposer : Address
  executedAt : Nat
  approveCount : Nat
  totalAttestors : Nat
deriving DecidableEq

/-- A vector of addresses; its length is a `u32`. -/
structure AttestorList where
  addresses : List Address
  length_le : addresses.length ≤ u32Max

/-- The votes on a proposal: one for each voter. -/
abbrev Votes := AList fun _ : Address => Bool

/-! ## Storage -/

inductive VotingKey
  | sliceProposalCounter (sliceId : Nat)
  | modificationProposal (sliceId proposalId : Nat)
  | proposalVotes (sliceId proposalId : Nat)
  | modificationHistory (sliceId : Nat)
  | attestorRegistry
  | votingConfig
deriving DecidableEq

/-- The type of the value under a key. -/
@[reducible] def VotingKey.Value : VotingKey → Type
  | .sliceProposalCounter _ => Nat
  | .modificationProposal _ _ => ModificationProposal
  | .proposalVotes _ _ => Votes
  | .modificationHistory _ => List ModificationRecord
  | .attestorRegistry => AttestorList
  | .votingConfig => VotingConfig

abbrev State := Store VotingKey.Value

abbrev storageGet (k : VotingKey) : Routine VotingKey.Value (Option k.Value) := load k

abbrev storageSet (k : VotingKey) (v : k.Value) : Routine VotingKey.Value Unit := save k v

/-! ## Helpers -/

def getAttestorRegistry : Routine VotingKey.Value AttestorList := do
  let attestors : Option AttestorList ← storageGet .attestorRegistry
  pure (attestors.getD ⟨[], Nat.zero_le _⟩)

def getVotingConfig : Routine VotingKey.Value VotingConfig := do
  let config : Option VotingConfig ← storageGet .votingConfig
  pure (config.getD ⟨defaultMinQuorum⟩)

def isRegisteredAttestor (address : Address) : Routine VotingKey.Value Bool := do
  let attestors ← getAttestorRegistry
  pure (decide (address ∈ attestors.addresses))

/-- `u32::from_be_bytes`. -/
def fromBeBytes (a b c d : UInt8) : Nat :=
  ((a.toNat * 256 + b.toNat) * 256 + c.toNat) * 256 + d.toNat

def parseSliceModification : Bytes → Option SliceModification
  | first :: a :: b :: c :: d :: _ =>
    if first = 0 then some (.updateMetadata (fromBeBytes a b c d))
    else if first = 1 then some (.updateRules (fromBeBytes a b c d))
    else if first = 2 then some (.reweightAttestors (fromBeBytes a b c d))
    else none
  | _ => none

/-- Nothing is applied yet: every modification that can be read is accepted. -/
def applySliceModification (_sliceId : Nat) : SliceModification → Bool
  | .updateMetadata _ => true
  | .updateRules _ => true
  | .reweightAttestors _ => true

/-! ## Functions -/

def registerAttestorRegistry (attestors : AttestorList) : Routine VotingKey.Value Unit :=
  storageSet .attestorRegistry attestors

def setVotingConfig (minQuorum : Nat) : Routine VotingKey.Value Unit :=
  storageSet .votingConfig ⟨minQuorum⟩

/-- A proposal made at `now`, on which `total` attestors may vote. -/
def newProposal (sliceId proposalId : Nat) (proposedChanges : Bytes) (proposer : Address)
    (total now : Nat) : ModificationProposal where
  sliceId := sliceId
  proposalId := proposalId
  proposedChanges := proposedChanges
  proposer := proposer
  status := .pending
  votingDeadline := saturatingAdd64 now defaultVotingPeriod
  approveCount := 0
  rejectCount := 0
  totalAttestors := total
  createdAt := now

def proposeSliceModification (sliceId : Nat) (proposedChanges : Bytes) (proposer : Address) :
    Routine VotingKey.Value Nat := do
  let counter : Option Nat ← storageGet (.sliceProposalCounter sliceId)
  let newProposalId := saturatingAdd64 (counter.getD 0) 1
  let now ← ask (·.timestamp)
  let attestors ← getAttestorRegistry
  storageSet (.modificationProposal sliceId newProposalId)
    (newProposal sliceId newProposalId proposedChanges proposer attestors.addresses.length now)
  storageSet (.sliceProposalCounter sliceId) newProposalId
  pure newProposalId

/-- The proposal with one more vote. -/
def ModificationProposal.count (p : ModificationProposal) (approve : Bool) :
    ModificationProposal :=
  if approve = true then { p with approveCount := min (p.approveCount + 1) u32Max }
  else { p with rejectCount := min (p.rejectCount + 1) u32Max }

/-- Records a vote and returns whether it counts. -/
def voteOnModification (sliceId proposalId : Nat) (voter : Address) (approve : Bool) :
    Routine VotingKey.Value Bool := do
  let registered ← isRegisteredAttestor voter
  if registered = false then pure false
  else do
    let found : Option ModificationProposal ←
      storageGet (.modificationProposal sliceId proposalId)
    Tx.ifSomeElse found
      (fun proposal => do
        let now ← ask (·.timestamp)
        if proposal.status ≠ .pending then pure false
        else if proposal.votingDeadline < now then pure false
        else do
          let stored : Option Votes ← storageGet (.proposalVotes sliceId proposalId)
          let votes := stored.getD ∅
          if voter ∈ votes then pure false
          else do
            storageSet (.proposalVotes sliceId proposalId) (votes.insert voter approve)
            storageSet (.modificationProposal sliceId proposalId) (proposal.count approve)
            pure true)
      (pure false)

/-- At least half of a non-empty electorate has approved. -/
def ModificationProposal.isApproved (p : ModificationProposal) : Bool :=
  decide (0 < p.totalAttestors ∧ p.totalAttestors * 50 ≤ p.approveCount * 100)

/-- Decides a pending proposal and returns whether it did. -/
def resolveModificationVoting (sliceId proposalId : Nat) : Routine VotingKey.Value Bool := do
  let found : Option ModificationProposal ← storageGet (.modificationProposal sliceId proposalId)
  Tx.ifSomeElse found
    (fun proposal => do
      if proposal.status ≠ .pending then pure false
      else do
        let config ← getVotingConfig
        require (config.minQuorum ≤ min (proposal.approveCount + proposal.rejectCount) u32Max)
          .insufficientQuorum
        storageSet (.modificationProposal sliceId proposalId)
          { proposal with status := if proposal.isApproved then .approved else .rejected }
        pure true)
    (pure false)

/-- Executes an approved proposal and returns whether it did. -/
def executeSliceModification (sliceId proposalId : Nat) : Routine VotingKey.Value Bool := do
  let found : Option ModificationProposal ← storageGet (.modificationProposal sliceId proposalId)
  Tx.ifSomeElse found
    (fun proposal =>
      if proposal.status ≠ .approved then pure false
      else Tx.ifSomeElse (parseSliceModification proposal.proposedChanges)
        (fun modification =>
          if applySliceModification sliceId modification = false then pure false
          else do
            storageSet (.modificationProposal sliceId proposalId)
              { proposal with status := .executed }
            let history : Option (List ModificationRecord) ←
              storageGet (.modificationHistory sliceId)
            let now ← ask (·.timestamp)
            storageSet (.modificationHistory sliceId)
              (history.getD [] ++ [⟨proposalId, proposal.proposedChanges, proposal.proposer, now,
                proposal.approveCount, proposal.totalAttestors⟩])
            pure true)
        (pure false))
    (pure false)

/-- The calls, by anyone: the module has no entry points of its own. -/
inductive Call
  | registerAttestorRegistry (attestors : AttestorList)
  | setVotingConfig (minQuorum : Nat)
  | proposeSliceModification (sliceId : Nat) (proposedChanges : Bytes) (proposer : Address)
  | voteOnModification (sliceId proposalId : Nat) (voter : Address) (approve : Bool)
  | resolveModificationVoting (sliceId proposalId : Nat)
  | executeSliceModification (sliceId proposalId : Nat)

def exec : Call → Routine VotingKey.Value Unit
  | .registerAttestorRegistry attestors => registerAttestorRegistry attestors
  | .setVotingConfig minQuorum => setVotingConfig minQuorum
  | .proposeSliceModification sliceId proposedChanges proposer => do
      let _ ← proposeSliceModification sliceId proposedChanges proposer
  | .voteOnModification sliceId proposalId voter approve => do
      let _ ← voteOnModification sliceId proposalId voter approve
  | .resolveModificationVoting sliceId proposalId => do
      let _ ← resolveModificationVoting sliceId proposalId
  | .executeSliceModification sliceId proposalId => do
      let _ ← executeSliceModification sliceId proposalId

/-- A call that succeeds; one that fails changes nothing. -/
def Step (s : State) (k : Env × Call) (t : State) : Prop := exec k.2 k.1 s = .ok ((), t)

/-! ## What is kept of a proposal -/

def proposalOf (s : State) (sliceId id : Nat) : Option ModificationProposal :=
  s.get (.modificationProposal sliceId id)

def votesOf (s : State) (sliceId id : Nat) : Votes :=
  (s.get (.proposalVotes sliceId id)).getD ∅

def historyOf (s : State) (sliceId : Nat) : List ModificationRecord :=
  (s.get (.modificationHistory sliceId)).getD []

def counterOf (s : State) (sliceId : Nat) : Nat :=
  (s.get (.sliceProposalCounter sliceId)).getD 0

/-- The number of the next proposal of a slice. -/
def nextId (s : State) (sliceId : Nat) : Nat := saturatingAdd64 (counterOf s sliceId) 1

def registryOf (s : State) : AttestorList :=
  (s.get .attestorRegistry).getD ⟨[], Nat.zero_le _⟩

def minQuorumOf (s : State) : Nat := ((s.get .votingConfig).getD ⟨defaultMinQuorum⟩).minQuorum

def ModificationProposal.voted (p : ModificationProposal) : Nat := p.approveCount + p.rejectCount

def Executed (s : State) (sliceId id : Nat) : Prop :=
  ∃ p, proposalOf s sliceId id = some p ∧ p.status = .executed

section Reads

variable {s : State} {k : VotingKey} {v : k.Value} {i j i' j' : Nat} {p : ModificationProposal}
  {votes : Votes} {records : List ModificationRecord}

@[simp] theorem proposalOf_put_self :
    proposalOf (s.put (.modificationProposal i j) p) i' j' =
      if i' = i ∧ j' = j then some p else proposalOf s i' j' := by
  unfold proposalOf
  split
  · next h =>
    obtain ⟨rfl, rfl⟩ := h
    exact Store.get_put_self
  · next h => exact Store.get_put_of_ne (by simpa using h)

@[simp] theorem proposalOf_put (h : ∀ i j, k ≠ .modificationProposal i j) :
    proposalOf (s.put k v) i' j' = proposalOf s i' j' :=
  Store.get_put_of_ne (h i' j').symm

@[simp] theorem votesOf_put_self :
    votesOf (s.put (.proposalVotes i j) votes) i' j' =
      if i' = i ∧ j' = j then votes else votesOf s i' j' := by
  unfold votesOf
  split
  · next h =>
    obtain ⟨rfl, rfl⟩ := h
    rw [Store.get_put_self, Option.getD_some]
  · next h => rw [Store.get_put_of_ne (by simpa using h)]

@[simp] theorem votesOf_put (h : ∀ i j, k ≠ .proposalVotes i j) :
    votesOf (s.put k v) i' j' = votesOf s i' j' := by
  rw [votesOf, votesOf, Store.get_put_of_ne (h i' j').symm]

theorem votesOf_same : votesOf s i' j' = if i' = i ∧ j' = j then votesOf s i j else votesOf s i' j' := by
  split
  · next h => rw [h.1, h.2]
  · rfl

@[simp] theorem historyOf_put_self :
    historyOf (s.put (.modificationHistory i) records) i' =
      if i' = i then records else historyOf s i' := by
  unfold historyOf
  split
  · next h =>
    subst h
    rw [Store.get_put_self, Option.getD_some]
  · next h => rw [Store.get_put_of_ne (by simpa using h)]

@[simp] theorem counterOf_put_self {n : Nat} :
    counterOf (s.put (.sliceProposalCounter i) n) i' = if i' = i then n else counterOf s i' := by
  unfold counterOf
  split
  · next h =>
    subst h
    rw [Store.get_put_self, Option.getD_some]
  · next h => rw [Store.get_put_of_ne (by simpa using h)]

@[simp] theorem counterOf_put (h : ∀ i, k ≠ .sliceProposalCounter i) :
    counterOf (s.put k v) i' = counterOf s i' := by
  rw [counterOf, counterOf, Store.get_put_of_ne (h i').symm]

theorem counterOf_same : counterOf s i' = if i' = i then counterOf s i else counterOf s i' := by
  split
  · next h => rw [h]
  · rfl

@[simp] theorem historyOf_put (h : ∀ i, k ≠ .modificationHistory i) :
    historyOf (s.put k v) i' = historyOf s i' := by
  rw [historyOf, historyOf, Store.get_put_of_ne (h i').symm]

end Reads

/-! ## What the calls do -/

section Steps

variable {s t : State} {e : Env} {i j : Nat}

/-- `t` keeps everything of every proposal that `s` keeps. -/
structure Same (s t : State) : Prop where
  proposal_eq : ∀ i j, proposalOf t i j = proposalOf s i j
  votes_eq : ∀ i j, votesOf t i j = votesOf s i j
  history_eq : ∀ i, historyOf t i = historyOf s i
  counter_eq : ∀ i, counterOf t i = counterOf s i

/-- `t` is `s` but for proposal `j` of slice `i`, which has become `p` with the given
votes, the records that have been added to the history of the slice and its counter. -/
structure Changed (s : State) (i j : Nat) (p : ModificationProposal) (votes : Votes)
    (records : List ModificationRecord) (counter : Nat) (t : State) : Prop where
  proposal_eq : ∀ i' j', proposalOf t i' j' = if i' = i ∧ j' = j then some p else proposalOf s i' j'
  votes_eq : ∀ i' j', votesOf t i' j' = if i' = i ∧ j' = j then votes else votesOf s i' j'
  history_eq : ∀ i', historyOf t i' = if i' = i then historyOf s i ++ records else historyOf s i'
  counter_eq : ∀ i', counterOf t i' = if i' = i then counter else counterOf s i'

/-- The vote would be recorded. -/
structure Counts (s : State) (now : Nat) (i j : Nat) (voter : Address)
    (p : ModificationProposal) : Prop where
  registered : voter ∈ (registryOf s).addresses
  found : proposalOf s i j = some p
  pending : p.status = .pending
  inTime : now ≤ p.votingDeadline
  fresh : voter ∉ votesOf s i j

/-- The proposal would be decided. -/
structure Resolves (s : State) (i j : Nat) (p : ModificationProposal) : Prop where
  found : proposalOf s i j = some p
  pending : p.status = .pending
  quorum : minQuorumOf s ≤ min p.voted u32Max

/-- What a call does to the proposals. -/
inductive Effect (s t : State) (now : Nat) : Call → Prop
  | proposed {i : Nat} {changes : Bytes} {proposer : Address}
      (h : Changed s i (nextId s i) (newProposal i (nextId s i) changes proposer
        (registryOf s).addresses.length now) (votesOf s i (nextId s i)) []
        (nextId s i) t) :
      Effect s t now (.proposeSliceModification i changes proposer)
  | voted {i j : Nat} {voter : Address} {approve : Bool} {p : ModificationProposal}
      (hcounts : Counts s now i j voter p)
      (h : Changed s i j (p.count approve) ((votesOf s i j).insert voter approve) []
        (counterOf s i) t) :
      Effect s t now (.voteOnModification i j voter approve)
  | resolved {i j : Nat} {p : ModificationProposal} (hresolves : Resolves s i j p)
      (h : Changed s i j { p with status := if p.isApproved then .approved else .rejected }
        (votesOf s i j) [] (counterOf s i) t) : Effect s t now (.resolveModificationVoting i j)
  | executed {i j : Nat} {p : ModificationProposal}
      (hfound : proposalOf s i j = some p) (happroved : p.status = .approved)
      (h : Changed s i j { p with status := .executed } (votesOf s i j)
        [⟨j, p.proposedChanges, p.proposer, now, p.approveCount, p.totalAttestors⟩]
        (counterOf s i) t) :
      Effect s t now (.executeSliceModification i j)
  | same {call : Call} (hpropose : ∀ i changes proposer,
        call ≠ .proposeSliceModification i changes proposer)
      (hvote : ∀ i j voter approve p, call = .voteOnModification i j voter approve →
        ¬ Counts s now i j voter p)
      (hresolve : ∀ i j p, call = .resolveModificationVoting i j → ¬ Resolves s i j p)
      (h : Same s t) : Effect s t now call

theorem Same.refl (s : State) : Same s s :=
  ⟨fun _ _ => rfl, fun _ _ => rfl, fun _ => rfl, fun _ => rfl⟩

@[simp ↓] theorem wp_getAttestorRegistry {Q : AttestorList → State → Prop} :
    wp getAttestorRegistry Q e s ↔ Q (registryOf s) s := by
  simp only [getAttestorRegistry, registryOf, Tx.wp_bind, Tx.wp_pure, wp_load]

@[simp ↓] theorem wp_getVotingConfig {Q : VotingConfig → State → Prop} :
    wp getVotingConfig Q e s ↔ Q ((s.get .votingConfig).getD ⟨defaultMinQuorum⟩) s := by
  simp only [getVotingConfig, Tx.wp_bind, Tx.wp_pure, wp_load]

theorem propose_wp {changes : Bytes} {proposer : Address} :
    wp (proposeSliceModification i changes proposer)
      (fun _ t => Effect s t e.timestamp (.proposeSliceModification i changes proposer)) e s := by
  simp only [proposeSliceModification, Tx.wp_bind, Tx.wp_pure, Tx.wp_ask, wp_load, wp_save,
    wp_getAttestorRegistry]
  refine .proposed ⟨fun i' j' => ?_, fun i' j' => ?_, ?_, fun i' => ?_⟩
  · rw [proposalOf_put (by simp), proposalOf_put_self]
    rfl
  · simpa using votesOf_same
  · simp
  · rw [counterOf_put_self, counterOf_put (by simp)]
    rfl

theorem vote_wp {voter : Address} {approve : Bool} :
    wp (voteOnModification i j voter approve)
      (fun _ t => Effect s t e.timestamp (.voteOnModification i j voter approve)) e s := by
  -- a vote that does not count leaves everything as it is
  have hsame : (∀ p, ¬ Counts s e.timestamp i j voter p) →
      Effect s s e.timestamp (.voteOnModification i j voter approve) := by
    refine fun hnot => .same (fun _ _ _ h => nomatch h) (fun i' j' voter' approve' p h => ?_)
      (fun _ _ _ h => nomatch h) (.refl s)
    cases h
    exact hnot p
  simp only [voteOnModification, isRegisteredAttestor, Tx.wp_bind, Tx.wp_pure, Tx.wp_ask,
    Tx.wp_ite, Tx.wp_ifSomeElse, wp_load, wp_save, wp_getAttestorRegistry, decide_eq_false_iff_not,
    not_not]
  refine ⟨fun hunregistered => hsame fun p h => hunregistered h.registered, fun hregistered => ?_⟩
  constructor
  · intro p hfound
    refine ⟨fun hdecided => hsame fun p' h => ?_, fun hpending => ?_⟩
    · obtain rfl : p = p' := Option.some.inj (hfound.symm.trans h.found)
      exact hdecided h.pending
    refine ⟨fun hlate => hsame fun p' h => ?_, fun hinTime => ?_⟩
    · obtain rfl : p = p' := Option.some.inj (hfound.symm.trans h.found)
      exact absurd h.inTime (Nat.not_le_of_lt hlate)
    refine ⟨fun hvoted => hsame fun p' h => h.fresh hvoted, fun hfresh => ?_⟩
    refine .voted ⟨hregistered, hfound, hpending, Nat.le_of_not_lt hinTime, hfresh⟩
      ⟨?_, ?_, ?_, ?_⟩
    · simp
    · intro i' j'
      rw [votesOf_put (by simp), votesOf_put_self]
      rfl
    · simp
    · exact fun i' => by simpa using counterOf_same
  · intro hnone
    refine hsame fun p h => ?_
    exact absurd (h.found.symm.trans hnone) (Option.some_ne_none p)

theorem resolve_wp : wp (resolveModificationVoting i j)
    (fun _ t => Effect s t e.timestamp (.resolveModificationVoting i j)) e s := by
  have hsame : (∀ p, ¬ Resolves s i j p) →
      Effect s s e.timestamp (.resolveModificationVoting i j) := by
    refine fun hnot => .same (fun _ _ _ h => nomatch h) (fun _ _ _ _ _ h => nomatch h)
      (fun i' j' p h => ?_) (.refl s)
    cases h
    exact hnot p
  simp only [resolveModificationVoting, Tx.wp_bind, Tx.wp_pure, Tx.wp_ite, Tx.wp_ifSomeElse,
    wp_load, wp_save, wp_require, wp_getVotingConfig, not_not]
  constructor
  · intro p hfound
    refine ⟨fun hdecided => hsame fun p' h => ?_, fun hpending hquorum => ?_⟩
    · obtain rfl : p = p' := Option.some.inj (hfound.symm.trans h.found)
      exact hdecided h.pending
    refine .resolved ⟨hfound, hpending, hquorum⟩ ⟨?_, ?_, ?_, ?_⟩
    · simp
    · exact fun i' j' => by simpa using votesOf_same
    · simp
    · exact fun i' => by simpa using counterOf_same
  · intro hnone
    refine hsame fun p h => ?_
    exact absurd (h.found.symm.trans hnone) (Option.some_ne_none p)

theorem execute_wp : wp (executeSliceModification i j)
    (fun _ t => Effect s t e.timestamp (.executeSliceModification i j)) e s := by
  have hsame : Effect s s e.timestamp (.executeSliceModification i j) :=
    .same (fun _ _ _ h => nomatch h) (fun _ _ _ _ _ h => nomatch h) (fun _ _ _ h => nomatch h)
      (.refl s)
  simp only [executeSliceModification, Tx.wp_bind, Tx.wp_pure, Tx.wp_ask, Tx.wp_ite,
    Tx.wp_ifSomeElse, wp_load, wp_save, not_not]
  refine ⟨fun p hfound => ⟨fun _ => hsame, fun happroved => ⟨fun m _ => ⟨fun _ => hsame, ?_⟩,
    fun _ => hsame⟩⟩, fun _ => hsame⟩
  intro _
  refine .executed hfound happroved ⟨?_, fun i' j' => ?_, fun i' => ?_, fun i' => ?_⟩
  · simp
  · simpa using votesOf_same
  · rw [historyOf_put_self, historyOf_put (by simp)]
    rfl
  · simpa using counterOf_same

theorem step_effect {k : Env × Call} (h : Step s k t) : Effect s t k.1.timestamp k.2 := by
  obtain ⟨e, call⟩ := k
  have hwp : wp (exec call) (fun _ t => Effect s t e.timestamp call) e s := by
    cases call with
    | registerAttestorRegistry attestors =>
        simp only [exec, registerAttestorRegistry, wp_save]
        exact .same (fun _ _ _ h => nomatch h) (fun _ _ _ _ _ h => nomatch h)
          (fun _ _ _ h => nomatch h) ⟨by simp, by simp, by simp, by simp⟩
    | setVotingConfig minQuorum =>
        simp only [exec, setVotingConfig, wp_save]
        exact .same (fun _ _ _ h => nomatch h) (fun _ _ _ _ _ h => nomatch h)
          (fun _ _ _ h => nomatch h) ⟨by simp, by simp, by simp, by simp⟩
    | proposeSliceModification i changes proposer =>
        simp only [exec, Tx.wp_bind, Tx.wp_pure]
        exact propose_wp
    | voteOnModification i j voter approve =>
        simp only [exec, Tx.wp_bind, Tx.wp_pure]
        exact vote_wp
    | resolveModificationVoting i j =>
        simp only [exec, Tx.wp_bind, Tx.wp_pure]
        exact resolve_wp
    | executeSliceModification i j =>
        simp only [exec, Tx.wp_bind, Tx.wp_pure]
        exact execute_wp
  exact hwp () t h

/-! ## What holds of every proposal -/

/-- What is kept of proposal `j` of slice `i` fits together. -/
structure Kept (s : State) (i j : Nat) : Prop where
  tallied : ∀ p, proposalOf s i j = some p →
    p.voted = (votesOf s i j).keys.length ∧ p.voted ≤ p.totalAttestors
  approved : ∀ p, proposalOf s i j = some p → p.status = .approved ∨ p.status = .executed →
    p.totalAttestors ≤ 2 * p.approveCount ∧ 0 < p.totalAttestors
  recorded : (historyOf s i).countP (·.proposalId = j) ≤ 1 ∧
    (0 < (historyOf s i).countP (·.proposalId = j) ↔ Executed s i j)

/-- A pending proposal is decided after its deadline or when all have voted. -/
def OnTime (s : State) (now : Nat) (t : State) : Prop :=
  ∀ i j p q, proposalOf s i j = some p → p.status = .pending → proposalOf t i j = some q →
    q.status ≠ .pending → p.votingDeadline < now ∨ p.totalAttestors ≤ p.voted

/-- A proposal gets a number that has no votes, a vote counts only while the electorate
has not been used up, and a proposal is decided only after its deadline or when all have
voted. -/
def Safe (s : State) (k : Env × Call) : Prop :=
  (∀ i changes proposer, k.2 = .proposeSliceModification i changes proposer →
    (votesOf s i (nextId s i)).keys = []) ∧
  (∀ i j voter approve p, k.2 = .voteOnModification i j voter approve →
    Counts s k.1.timestamp i j voter p → p.voted < p.totalAttestors) ∧
  ∀ i j p, k.2 = .resolveModificationVoting i j → Resolves s i j p →
    p.votingDeadline < k.1.timestamp ∨ p.totalAttestors ≤ p.voted

/-- Electorates are as large as a vector can be. -/
def Electorates (s : State) : Prop :=
  ∀ i j p, proposalOf s i j = some p → p.totalAttestors ≤ u32Max

section Invariants

variable {p q : ModificationProposal} {votes : Votes} {records : List ModificationRecord}
  {counter i' j' now : Nat} {voter : Address} {approve : Bool}

theorem Kept.congr (h : Kept s i j) (hproposal : proposalOf t i j = proposalOf s i j)
    (hvotes : votesOf t i j = votesOf s i j)
    (hhistory : (historyOf t i).countP (·.proposalId = j) =
      (historyOf s i).countP (·.proposalId = j)) : Kept t i j := by
  obtain ⟨htallied, happroved, hrecorded⟩ := h
  refine ⟨?_, ?_, ?_⟩
  · rw [hproposal, hvotes]
    exact htallied
  · rw [hproposal]
    exact happroved
  · rw [hhistory]
    unfold Executed
    rw [hproposal]
    exact hrecorded

/-- The other proposals are kept as they were, if the new records are of proposal `j`. -/
theorem Changed.kept_other (h : Changed s i j p votes records counter t)
    (hrecords : ∀ r ∈ records, r.proposalId = j) (hne : ¬ (i' = i ∧ j' = j))
    (hs : Kept s i' j') : Kept t i' j' := by
  refine hs.congr (by rw [h.proposal_eq, if_neg hne]) (by rw [h.votes_eq, if_neg hne]) ?_
  rw [h.history_eq]
  split
  · next heq =>
    subst heq
    have hnone : records.countP (·.proposalId = j') = 0 := by
      refine List.countP_eq_zero.mpr fun r hr hj => hne ⟨rfl, ?_⟩
      exact (of_decide_eq_true hj).symm.trans (hrecords r hr)
    rw [List.countP_append, hnone, Nat.add_zero]
  · rfl

theorem Changed.proposal_self (h : Changed s i j p votes records counter t) :
    proposalOf t i j = some p := by
  rw [h.proposal_eq, if_pos ⟨rfl, rfl⟩]

theorem Changed.votes_self (h : Changed s i j p votes records counter t) :
    votesOf t i j = votes := by
  rw [h.votes_eq, if_pos ⟨rfl, rfl⟩]

theorem Changed.count_self (h : Changed s i j p votes records counter t) :
    (historyOf t i).countP (·.proposalId = j) =
      (historyOf s i).countP (·.proposalId = j) + records.countP (·.proposalId = j) := by
  rw [h.history_eq, if_pos rfl, List.countP_append]

theorem Changed.executed_iff (h : Changed s i j p votes records counter t) :
    Executed t i j ↔ p.status = .executed := by
  unfold Executed
  rw [h.proposal_self]
  simp

/-- A step is on time if the proposal it changes was decided, stays pending, or is due. -/
theorem Changed.onTime (h : Changed s i j p votes records counter t)
    (hdue : ∀ q, proposalOf s i j = some q → q.status = .pending → p.status ≠ .pending →
      q.votingDeadline < now ∨ q.totalAttestors ≤ q.voted) : OnTime s now t := by
  intro i' j' q q' hq hpending hq' hdecided
  rw [h.proposal_eq] at hq'
  split at hq'
  · next heq =>
    obtain ⟨rfl, rfl⟩ := heq
    obtain rfl : p = q' := Option.some.inj hq'
    exact hdue q hq hpending hdecided
  · next hne =>
    obtain rfl : q = q' := Option.some.inj (hq.symm.trans hq')
    exact absurd hpending hdecided

/-- All proposals are kept exactly if the one that has changed is. -/
theorem Changed.kept_iff (hs : ∀ i j, Kept s i j) (h : Changed s i j p votes records counter t)
    (hrecords : ∀ r ∈ records, r.proposalId = j) : (∀ i j, Kept t i j) ↔ Kept t i j := by
  refine ⟨fun ht => ht i j, fun ht i' j' => ?_⟩
  by_cases heq : i' = i ∧ j' = j
  · obtain ⟨rfl, rfl⟩ := heq
    exact ht
  · exact h.kept_other hrecords heq (hs i' j')

theorem count_voted (approve : Bool) (hroom : p.voted < u32Max) : (p.count approve).voted = p.voted + 1 := by
  unfold ModificationProposal.voted at hroom ⊢
  cases approve with
  | true =>
      have hlt : p.approveCount + 1 ≤ u32Max := by omega
      simp only [ModificationProposal.count, if_true, Nat.min_eq_left hlt]
      omega
  | false =>
      have hlt : p.rejectCount + 1 ≤ u32Max := by omega
      simp only [ModificationProposal.count, Bool.false_eq_true, if_false, Nat.min_eq_left hlt]
      omega

theorem count_total : (p.count approve).totalAttestors = p.totalAttestors := by
  cases approve <;> rfl

theorem count_status : (p.count approve).status = p.status := by
  cases approve <;> rfl

theorem keys_insert_length (hfresh : voter ∉ votes) :
    (votes.insert voter approve).keys.length = votes.keys.length + 1 := by
  have herase : votes.keys.erase voter = votes.keys := List.erase_of_not_mem hfresh
  rw [AList.keys_insert, herase, List.length_cons]

theorem proposed_iff {changes : Bytes} {proposer : Address} {total : Nat}
    (hs : ∀ i j, Kept s i j)
    (h : Changed s i j (newProposal i j changes proposer total now) (votesOf s i j) [] counter t) :
    ((∀ i j, Kept t i j) ∧ OnTime s now t) ↔ (votesOf s i j).keys = [] := by
  have htime : OnTime s now t := h.onTime fun _ _ _ hdecided => absurd rfl hdecided
  rw [and_iff_left htime, h.kept_iff hs (by simp)]
  constructor
  · intro ht
    have hzero := (ht.tallied _ h.proposal_self).1
    rw [h.votes_self] at hzero
    exact List.length_eq_zero_iff.mp hzero.symm
  · intro hempty
    refine ⟨?_, ?_, ?_⟩
    · intro q hq
      obtain rfl := Option.some.inj (h.proposal_self.symm.trans hq)
      rw [h.votes_self, hempty]
      exact ⟨rfl, Nat.zero_le _⟩
    · intro q hq hdecided
      obtain rfl := Option.some.inj (h.proposal_self.symm.trans hq)
      cases hdecided with
      | inl h => cases h
      | inr h => cases h
    · -- an executed proposal has votes
      have hnot : ¬ Executed s i j := by
        rintro ⟨q, hq, hexecuted⟩
        have happroved := (hs i j).approved q hq (.inr hexecuted)
        have htallied := ((hs i j).tallied q hq).1
        rw [hempty, List.length_nil, ModificationProposal.voted] at htallied
        omega
      have hzero : (historyOf s i).countP (·.proposalId = j) = 0 :=
        Nat.eq_zero_of_not_pos fun hpos => hnot ((hs i j).recorded.2.mp hpos)
      rw [h.count_self, hzero, h.executed_iff]
      exact ⟨Nat.zero_le _, iff_of_false (Nat.lt_irrefl 0) (by simp [newProposal])⟩

theorem voted_iff (hs : ∀ i j, Kept s i j) (hbound : Electorates s)
    (hcounts : Counts s now i j voter p)
    (h : Changed s i j (p.count approve) ((votesOf s i j).insert voter approve) [] counter t) :
    ((∀ i j, Kept t i j) ∧ OnTime s now t) ↔ p.voted < p.totalAttestors := by
  have htime : OnTime s now t :=
    h.onTime fun _ _ _ hdecided => absurd (count_status.trans hcounts.pending) hdecided
  have htallied := (hs i j).tallied p hcounts.found
  rw [and_iff_left htime, h.kept_iff hs (by simp)]
  constructor
  · intro ht
    obtain ⟨hkeys, hle⟩ := ht.tallied _ h.proposal_self
    rw [h.votes_self, keys_insert_length hcounts.fresh] at hkeys
    rw [count_total] at hle
    omega
  · intro hroom
    have hvoted := count_voted approve
      (Nat.lt_of_lt_of_le hroom (hbound i j p hcounts.found))
    refine ⟨?_, ?_, ?_⟩
    · intro q hq
      obtain rfl := Option.some.inj (h.proposal_self.symm.trans hq)
      rw [h.votes_self, keys_insert_length hcounts.fresh, count_total, hvoted, htallied.1]
      exact ⟨rfl, htallied.1 ▸ hroom⟩
    · intro q hq hdecided
      obtain rfl := Option.some.inj (h.proposal_self.symm.trans hq)
      rw [count_status, hcounts.pending] at hdecided
      cases hdecided with
      | inl h => cases h
      | inr h => cases h
    · have hnot : ¬ Executed s i j := by
        rintro ⟨q, hq, hexecuted⟩
        obtain rfl := Option.some.inj (hcounts.found.symm.trans hq)
        exact absurd (hcounts.pending.symm.trans hexecuted) (by decide)
      have hexecuted : ¬ Executed t i j := by
        rw [h.executed_iff, count_status, hcounts.pending]
        decide
      rw [h.count_self, List.countP_nil, Nat.add_zero]
      refine ⟨(hs i j).recorded.1, ?_⟩
      rw [(hs i j).recorded.2]
      exact iff_of_false hnot hexecuted

theorem resolved_iff (hs : ∀ i j, Kept s i j) (hresolves : Resolves s i j p)
    (h : Changed s i j { p with status := if p.isApproved then .approved else .rejected }
      (votesOf s i j) [] counter t) :
    ((∀ i j, Kept t i j) ∧ OnTime s now t) ↔
      p.votingDeadline < now ∨ p.totalAttestors ≤ p.voted := by
  have hkept : Kept t i j := by
    refine ⟨?_, ?_, ?_⟩
    · intro q hq
      obtain rfl := Option.some.inj (h.proposal_self.symm.trans hq)
      rw [h.votes_self]
      exact (hs i j).tallied p hresolves.found
    · intro q hq hdecided
      obtain rfl := Option.some.inj (h.proposal_self.symm.trans hq)
      cases happroved : p.isApproved with
      | true =>
          simp only [ModificationProposal.isApproved, decide_eq_true_eq] at happroved
          obtain ⟨hpos, hhalf⟩ := happroved
          exact ⟨show p.totalAttestors ≤ 2 * p.approveCount by omega, hpos⟩
      | false => simp [happroved] at hdecided
    · have hnot : ¬ Executed s i j := by
        rintro ⟨q, hq, hexecuted⟩
        obtain rfl := Option.some.inj (hresolves.found.symm.trans hq)
        exact absurd (hresolves.pending.symm.trans hexecuted) (by decide)
      have hexecuted : ¬ Executed t i j := by
        rw [h.executed_iff]
        show ¬ (if p.isApproved then ProposalStatus.approved else .rejected) = .executed
        split <;> simp
      rw [h.count_self, List.countP_nil, Nat.add_zero]
      refine ⟨(hs i j).recorded.1, ?_⟩
      rw [(hs i j).recorded.2]
      exact iff_of_false hnot hexecuted
  rw [and_iff_right ((h.kept_iff hs (by simp)).mpr hkept)]
  constructor
  · intro htime
    refine htime i j p _ hresolves.found hresolves.pending h.proposal_self ?_
    show (if p.isApproved then ProposalStatus.approved else .rejected) ≠ .pending
    split <;> simp
  · intro hdue
    refine h.onTime fun q hq _ _ => ?_
    obtain rfl := Option.some.inj (hresolves.found.symm.trans hq)
    exact hdue

theorem executed_kept {record : ModificationRecord} (hs : ∀ i j, Kept s i j)
    (hfound : proposalOf s i j = some p) (happroved : p.status = .approved)
    (hrecord : record.proposalId = j)
    (h : Changed s i j { p with status := .executed } (votesOf s i j) [record] counter t) :
    (∀ i j, Kept t i j) ∧ OnTime s now t := by
  have hnot : ¬ Executed s i j := by
    rintro ⟨q, hq, hexecuted⟩
    obtain rfl := Option.some.inj (hfound.symm.trans hq)
    exact absurd (happroved.symm.trans hexecuted) (by decide)
  have hzero : (historyOf s i).countP (·.proposalId = j) = 0 :=
    Nat.eq_zero_of_not_pos fun hpos => hnot ((hs i j).recorded.2.mp hpos)
  constructor
  · refine (h.kept_iff hs (by simpa using hrecord)).mpr ⟨?_, ?_, ?_⟩
    · intro q hq
      obtain rfl := Option.some.inj (h.proposal_self.symm.trans hq)
      rw [h.votes_self]
      exact (hs i j).tallied p hfound
    · intro q hq _
      obtain rfl := Option.some.inj (h.proposal_self.symm.trans hq)
      exact (hs i j).approved p hfound (.inl happroved)
    · rw [h.count_self, hzero, h.executed_iff]
      simp [hrecord]
  · refine h.onTime fun q hq hpending _ => ?_
    obtain rfl := Option.some.inj (hfound.symm.trans hq)
    exact absurd (happroved.symm.trans hpending) (by decide)

theorem same_kept (hs : ∀ i j, Kept s i j) (h : Same s t) :
    (∀ i j, Kept t i j) ∧ OnTime s now t := by
  constructor
  · intro i j
    exact (hs i j).congr (h.proposal_eq i j) (h.votes_eq i j) (by rw [h.history_eq])
  · intro i j p q hp hpending hq hdecided
    rw [h.proposal_eq] at hq
    obtain rfl := Option.some.inj (hp.symm.trans hq)
    exact absurd hpending hdecided

/-- The steps that keep the proposals fitting together and are on time. -/
theorem kept_iff_safe {k : Env × Call} (hs : ∀ i j, Kept s i j) (hbound : Electorates s)
    (h : Step s k t) : ((∀ i j, Kept t i j) ∧ OnTime s k.1.timestamp t) ↔ Safe s k := by
  obtain ⟨e, call⟩ := k
  cases step_effect h with
  | @proposed i changes proposer hchanged =>
      rw [proposed_iff hs hchanged]
      constructor
      · intro hempty
        refine ⟨fun i' changes' proposer' heq => ?_, fun _ _ _ _ _ heq => (nomatch heq),
          fun _ _ _ heq => (nomatch heq)⟩
        cases heq
        exact hempty
      · exact fun hsafe => hsafe.1 i changes proposer rfl
  | @voted i j voter approve p hcounts hchanged =>
      rw [voted_iff hs hbound hcounts hchanged]
      constructor
      · intro hroom
        refine ⟨fun _ _ _ heq => (nomatch heq), fun i' j' voter' approve' q heq hq => ?_,
          fun _ _ _ heq => (nomatch heq)⟩
        cases heq
        obtain rfl := Option.some.inj (hcounts.found.symm.trans hq.found)
        exact hroom
      · exact fun hsafe => hsafe.2.1 i j voter approve p rfl hcounts
  | @resolved i j p hresolves hchanged =>
      rw [resolved_iff hs hresolves hchanged]
      constructor
      · intro hdue
        refine ⟨fun _ _ _ heq => (nomatch heq), fun _ _ _ _ _ heq => (nomatch heq),
          fun i' j' q heq hq => ?_⟩
        cases heq
        obtain rfl := Option.some.inj (hresolves.found.symm.trans hq.found)
        exact hdue
      · exact fun hsafe => hsafe.2.2 i j p rfl hresolves
  | executed hfound happroved hchanged =>
      refine iff_of_true (executed_kept hs hfound happroved rfl hchanged) ⟨?_, ?_, ?_⟩
      · exact fun _ _ _ heq => (nomatch heq)
      · exact fun _ _ _ _ _ heq => (nomatch heq)
      · exact fun _ _ _ heq => (nomatch heq)
  | same hpropose hvote hresolve hsame =>
      refine iff_of_true (same_kept hs hsame) ⟨?_, ?_, ?_⟩
      · exact fun i changes proposer heq => absurd heq (hpropose i changes proposer)
      · exact fun i j voter approve p heq hcounts =>
          absurd hcounts (hvote i j voter approve p heq)
      · exact fun i j p heq hresolves => absurd hresolves (hresolve i j p heq)

/-! ## Runs -/

/-- Numbers above the counter of a slice have not been used. -/
def Unused (s : State) : Prop :=
  ∀ i j, counterOf s i < j → proposalOf s i j = none ∧ (votesOf s i j).keys = []

theorem Changed.electorates (hs : Electorates s) (h : Changed s i j p votes records counter t)
    (hp : p.totalAttestors ≤ u32Max) : Electorates t := by
  intro i' j' q hq
  rw [h.proposal_eq] at hq
  split at hq
  · obtain rfl := Option.some.inj hq
    exact hp
  · exact hs i' j' q hq

theorem Electorates.step {k : Env × Call} (hs : Electorates s) (h : Step s k t) :
    Electorates t := by
  obtain ⟨e, call⟩ := k
  cases step_effect h with
  | proposed hchanged => exact hchanged.electorates hs (registryOf s).length_le
  | voted hcounts hchanged =>
      exact hchanged.electorates hs (count_total.trans_le (hs _ _ _ hcounts.found))
  | @resolved _ _ p hresolves hchanged =>
      exact hchanged.electorates hs (show p.totalAttestors ≤ _ from hs _ _ _ hresolves.found)
  | @executed _ _ p hfound _ hchanged =>
      exact hchanged.electorates hs (show p.totalAttestors ≤ _ from hs _ _ _ hfound)
  | same _ _ _ hsame => exact fun i j p hp => hs i j p ((hsame.proposal_eq i j).symm.trans hp)

theorem Changed.unused (hs : Unused s) (h : Changed s i j p votes records counter t)
    (hle : counterOf s i ≤ counter) (hj : j ≤ counter) : Unused t := by
  intro i' j' hlt
  rw [h.counter_eq] at hlt
  by_cases hi : i' = i
  · subst hi
    rw [if_pos rfl] at hlt
    have hne : ¬ (i' = i' ∧ j' = j) := fun heq => absurd hlt (by omega)
    rw [h.proposal_eq, h.votes_eq, if_neg hne, if_neg hne]
    exact hs i' j' (Nat.lt_of_le_of_lt hle hlt)
  · have hne : ¬ (i' = i ∧ j' = j) := fun heq => hi heq.1
    rw [if_neg hi] at hlt
    rw [h.proposal_eq, h.votes_eq, if_neg hne, if_neg hne]
    exact hs i' j' hlt

/-- A proposal has a number that its slice has counted. -/
theorem Unused.number_le (hs : Unused s) (hfound : proposalOf s i j = some p) :
    j ≤ counterOf s i := by
  by_contra hlt
  rw [(hs i j (Nat.lt_of_not_le hlt)).1] at hfound
  cases hfound

/-- A counter is a `u64`. -/
def Counters (s : State) : Prop := ∀ i, counterOf s i ≤ u64Max

theorem Changed.counters (hs : Counters s) (h : Changed s i j p votes records counter t)
    (hle : counter ≤ u64Max) : Counters t := by
  intro i'
  rw [h.counter_eq]
  split
  · exact hle
  · exact hs i'

theorem Counters.step {k : Env × Call} (hs : Counters s) (h : Step s k t) : Counters t := by
  obtain ⟨e, call⟩ := k
  cases step_effect h with
  | proposed hchanged => exact hchanged.counters hs (Nat.min_le_right _ _)
  | voted _ hchanged => exact hchanged.counters hs (hs _)
  | resolved _ hchanged => exact hchanged.counters hs (hs _)
  | executed _ _ hchanged => exact hchanged.counters hs (hs _)
  | same _ _ _ hsame => exact fun i => (hsame.counter_eq i).trans_le (hs i)

theorem Unused.step {k : Env × Call} (hcounters : Counters s) (hs : Unused s) (h : Step s k t) :
    Unused t := by
  obtain ⟨e, call⟩ := k
  cases step_effect h with
  | @proposed i _ _ hchanged =>
      have hle : counterOf s i ≤ nextId s i := Nat.le_min.mpr ⟨Nat.le_succ _, hcounters i⟩
      exact hchanged.unused hs hle (Nat.le_refl _)
  | voted hcounts hchanged =>
      exact hchanged.unused hs (Nat.le_refl _) (hs.number_le hcounts.found)
  | resolved hresolves hchanged =>
      exact hchanged.unused hs (Nat.le_refl _) (hs.number_le hresolves.found)
  | executed hfound _ hchanged =>
      exact hchanged.unused hs (Nat.le_refl _) (hs.number_le hfound)
  | same _ _ _ hsame =>
      intro i j hlt
      have hnone := hs i j ((hsame.counter_eq i).symm.trans_lt hlt)
      exact ⟨(hsame.proposal_eq i j).trans hnone.1, by rw [hsame.votes_eq, hnone.2]⟩

/-- Proposals are kept and decided as they should be in every run whose steps are safe,
and a step from a state of such a run keeps them so exactly if it is safe. A proposal
gets a number without votes as long as the numbers of its slice last. -/
theorem votes_decided (ks : List (Env × Call)) (s : State)
    (hrun : Run (Guarded Step Safe) .empty ks s) :
    (∀ i j, Kept s i j) ∧
    (∀ k t, Step s k t → (((∀ i j, Kept t i j) ∧ OnTime s k.1.timestamp t) ↔ Safe s k)) ∧
    ∀ i, counterOf s i < u64Max → (votesOf s i (nextId s i)).keys = [] := by
  have hkept : Electorates s ∧ ∀ i j, Kept s i j := by
    refine hrun.invariant (I := fun s => Electorates s ∧ ∀ i j, Kept s i j) ⟨?_, ?_⟩
      fun t k u ht hk => ⟨ht.1.step hk.1, ((kept_iff_safe ht.2 ht.1 hk.1).mpr hk.2).1⟩
    · exact fun i j p hp => by cases hp
    · refine fun i j => ⟨fun p hp => (by cases hp), fun p hp => (by cases hp), ?_⟩
      exact ⟨Nat.zero_le _, iff_of_false (Nat.lt_irrefl 0) fun ⟨p, hp, _⟩ => by cases hp⟩
  have hunused : Counters s ∧ Unused s := by
    refine hrun.unguard.invariant (I := fun s => Counters s ∧ Unused s) ⟨?_, ?_⟩
      fun t k u ht hk => ⟨ht.1.step hk, ht.2.step ht.1 hk⟩
    · exact fun i => Nat.zero_le _
    · exact fun i j _ => ⟨rfl, rfl⟩
  refine ⟨hkept.2, fun k t hstep => kept_iff_safe hkept.2 hkept.1 hstep, fun i hlt => ?_⟩
  have hnext : nextId s i = counterOf s i + 1 := Nat.min_eq_left hlt
  exact (hunused.2 i _ (hnext ▸ Nat.lt_succ_self _)).2

end Invariants

end Steps

/-! ## Votes on one proposal -/

/-- A call at the given time. -/
def signedAt (now : Nat) (call : Call) : Env × Call :=
  (⟨now, fun _ => true, ⟨.empty, ⟨fun _ _ => 0, []⟩⟩⟩, call)

/-- The registry of the first `n` of five attestors. -/
def attestors (n : Nat) : AttestorList :=
  ⟨[⟨1⟩, ⟨2⟩, ⟨3⟩, ⟨4⟩, ⟨5⟩].take n, Nat.le_trans (List.length_take_le' ..) (by decide)⟩

/-- Proposal 1 of slice 7, made at time 10 with one attestor. -/
def proposedState : State :=
  ((Store.put .empty .attestorRegistry (attestors 1)).put (.modificationProposal 7 1)
    (newProposal 7 1 [0, 0, 0, 0, 0] ⟨9⟩ 1 10)).put (.sliceProposalCounter 7) 1

/-- The attestor has approved it. -/
def votedState : State :=
  (proposedState.put (.proposalVotes 7 1) (AList.insert ⟨1⟩ true ∅)).put
    (.modificationProposal 7 1) { newProposal 7 1 [0, 0, 0, 0, 0] ⟨9⟩ 1 10 with approveCount := 1 }

/-- When all have voted, the proposal may be decided before its deadline. -/
theorem votes_decided_run : (∀ i j, Kept votedState i j) ∧
    ∀ t, Step votedState (signedAt 12 (.resolveModificationVoting 7 1)) t →
      (∀ i j, Kept t i j) ∧ OnTime votedState 12 t := by
  have hpropose : Safe (Store.put .empty .attestorRegistry (attestors 1))
      (signedAt 10 (.proposeSliceModification 7 [0, 0, 0, 0, 0] ⟨9⟩)) := by
    refine ⟨fun i changes proposer heq => ?_, fun _ _ _ _ _ heq => (nomatch heq),
      fun _ _ _ heq => (nomatch heq)⟩
    cases heq
    rfl
  have hvote : Safe proposedState (signedAt 11 (.voteOnModification 7 1 ⟨1⟩ true)) := by
    refine ⟨fun _ _ _ heq => (nomatch heq), fun i j voter approve p heq hcounts => ?_,
      fun _ _ _ heq => (nomatch heq)⟩
    cases heq
    have hfound : proposalOf proposedState 7 1 =
      some (newProposal 7 1 [0, 0, 0, 0, 0] ⟨9⟩ 1 10) := rfl
    obtain rfl := Option.some.inj (hfound.symm.trans hcounts.found)
    decide
  have hregistered : Safe .empty (signedAt 9 (.registerAttestorRegistry (attestors 1))) :=
    ⟨fun _ _ _ heq => (nomatch heq), fun _ _ _ _ _ heq => (nomatch heq),
      fun _ _ _ heq => (nomatch heq)⟩
  have hrun : Run (Guarded Step Safe) .empty
      [signedAt 11 (.voteOnModification 7 1 ⟨1⟩ true),
        signedAt 10 (.proposeSliceModification 7 [0, 0, 0, 0, 0] ⟨9⟩),
        signedAt 9 (.registerAttestorRegistry (attestors 1))] votedState :=
    .next (.next (.next .start ⟨rfl, hregistered⟩) ⟨rfl, hpropose⟩) ⟨rfl, hvote⟩
  have hresult := votes_decided _ _ hrun
  refine ⟨hresult.1, fun t hstep => (hresult.2.1 _ t hstep).mpr ?_⟩
  refine ⟨fun _ _ _ heq => (nomatch heq), fun _ _ _ _ _ heq => (nomatch heq),
    fun i j p heq hresolves => .inr ?_⟩
  cases heq
  have hfound : proposalOf votedState 7 1 =
    some { newProposal 7 1 [0, 0, 0, 0, 0] ⟨9⟩ 1 10 with approveCount := 1 } := rfl
  obtain rfl := Option.some.inj (hfound.symm.trans hresolves.found)
  decide

/-- One of two attestors approves, and the proposal is approved at once, a week before
its deadline. And where a second attestor is registered after a proposal has been made
to one, two of one attestors vote on it. -/
theorem votes_undecided :
    (∃ s t, Run Step .empty
        [signedAt 11 (.voteOnModification 7 1 ⟨1⟩ true),
          signedAt 10 (.proposeSliceModification 7 [0, 0, 0, 0, 0] ⟨9⟩),
          signedAt 9 (.registerAttestorRegistry (attestors 2))] s ∧
      Step s (signedAt 12 (.resolveModificationVoting 7 1)) t ∧ ¬ OnTime s 12 t) ∧
    ∃ s p, Run Step .empty
        [signedAt 13 (.voteOnModification 7 1 ⟨2⟩ true), signedAt 12 (.voteOnModification 7 1 ⟨1⟩ true),
          signedAt 11 (.registerAttestorRegistry (attestors 2)),
          signedAt 10 (.proposeSliceModification 7 [0, 0, 0, 0, 0] ⟨9⟩),
          signedAt 9 (.registerAttestorRegistry (attestors 1))] s ∧
      proposalOf s 7 1 = some p ∧ p.voted = 2 ∧ p.totalAttestors = 1 := by
  constructor
  · have hplay : (play exec
        [signedAt 11 (.voteOnModification 7 1 ⟨1⟩ true),
          signedAt 10 (.proposeSliceModification 7 [0, 0, 0, 0, 0] ⟨9⟩),
          signedAt 9 (.registerAttestorRegistry (attestors 2))]).any (fun s =>
        (play exec [signedAt 12 (.resolveModificationVoting 7 1),
          signedAt 11 (.voteOnModification 7 1 ⟨1⟩ true),
          signedAt 10 (.proposeSliceModification 7 [0, 0, 0, 0, 0] ⟨9⟩),
          signedAt 9 (.registerAttestorRegistry (attestors 2))]).any fun t =>
        (proposalOf s 7 1).any fun p => (proposalOf t 7 1).any fun q =>
          p.status = .pending ∧ q.status = .approved ∧ 12 ≤ p.votingDeadline ∧
            p.voted < p.totalAttestors) = true := by
      decide +kernel
    obtain ⟨s, hs, hchecks⟩ := (Option.any_eq_true _ _).mp hplay
    obtain ⟨t, ht, hchecks⟩ := (Option.any_eq_true _ _).mp hchecks
    obtain ⟨p, hp, hchecks⟩ := (Option.any_eq_true _ _).mp hchecks
    obtain ⟨q, hq, hchecks⟩ := (Option.any_eq_true _ _).mp hchecks
    simp only [decide_eq_true_eq] at hchecks
    obtain ⟨hpending, happroved, hearly, hopen⟩ := hchecks
    refine ⟨s, t, run_of_play hs, step_of_play hs ht, fun htime => ?_⟩
    have hdecided : q.status ≠ .pending := by
      rw [happroved]
      decide
    rcases htime 7 1 p q hp hpending hq hdecided with hlate | hall
    · exact absurd hlate (Nat.not_lt_of_le hearly)
    · exact absurd hopen (Nat.not_lt_of_le hall)
  · have hplay : (play exec
        [signedAt 13 (.voteOnModification 7 1 ⟨2⟩ true),
          signedAt 12 (.voteOnModification 7 1 ⟨1⟩ true),
          signedAt 11 (.registerAttestorRegistry (attestors 2)),
          signedAt 10 (.proposeSliceModification 7 [0, 0, 0, 0, 0] ⟨9⟩),
          signedAt 9 (.registerAttestorRegistry (attestors 1))]).any (fun s =>
        (proposalOf s 7 1).any fun p => p.voted = 2 ∧ p.totalAttestors = 1) = true := by
      decide +kernel
    obtain ⟨s, hs, hchecks⟩ := (Option.any_eq_true _ _).mp hplay
    obtain ⟨p, hp, hcounts⟩ := (Option.any_eq_true _ _).mp hchecks
    simp only [decide_eq_true_eq] at hcounts
    exact ⟨s, p, run_of_play hs, hp, hcounts.1, hcounts.2⟩

end Heirloom.Modules.Voting
