import Heirloom.System

/-!
# The list of open proposals

`list_open_proposals` reads a list that the functions about proposals keep by hand beside the
statuses. Proposing appends to it, rejecting and executing filter it; a veto and the removal of a
signer change statuses and leave the list as it is.

* `exec_proposals`: what a call does to the list and to the set of open proposals of a vault.
* `open_proposals_exact_iff`: in every run without a veto of an open proposal and without the
  removal of a signer that rejects one, the list is exact, and it stays so at the next call if and
  only if this call is not of the two kinds either.
-/

namespace Heirloom

open Transaction Runs

def listOpenProposals (vaultId : Nat) : Contract (List Nat) := do
  return (← storageGet (.openProposals vaultId)).getD []

/-! ## What the list is for -/

/-- Proposal `pid` of vault `id` is open: it waits for approvals, or is approved and waits for its
execution. -/
def State.IsOpen (s : State) (id pid : Nat) : Prop :=
  ∃ p, s.get (.multiSigProposal id pid) = some p ∧ (p.status = .pending ∨ p.status = .approved)

/-- The list of a vault has each of its open proposals once, and no other. -/
def OpenListExact (s : State) (id : Nat) : Prop :=
  ∃ l, (∀ e, listOpenProposals id e s = .ok (l, s)) ∧ l.Nodup ∧ ∀ pid, pid ∈ l ↔ s.IsOpen id pid

/-- The approvals that a proposal can still get from the owner and the given signers. -/
def MultiSigProposal.outstanding (p : MultiSigProposal) (now : Nat) (owner : Address)
    (signers : List Address) : Nat :=
  if now ≤ p.expiresAt then ((owner :: signers).dedup.filter (· ∉ p.approvals)).length else 0

/-- The removal of a signer rejects only proposals that the owner and the other signers cannot
bring to the new threshold any more. -/
def RejectsOnlyHopeless (e : Env) (s t : State) : Call → Prop
  | .multisig (.removeMultisigSigner id _ signer) =>
      ∀ pid p q config v, s.get (.multiSigProposal id pid) = some p → p.status = .pending →
        t.get (.multiSigProposal id pid) = some q → q.status = .rejected →
        s.get (.multiSigConfig id) = some config → s.vault id = some v →
        p.approvalsWithout signer +
          p.outstanding e.timestamp v.owner (config.without signer).signers <
            (config.without signer).threshold
  | _ => True

/-- The proposal is pending, and has fewer approvals than the threshold without the signer. -/
def State.FallsShort (s : State) (id : Nat) (signer : Address) (pid : Nat) : Prop :=
  ∃ p config, s.get (.multiSigProposal id pid) = some p ∧ p.status = .pending ∧
    s.get (.multiSigConfig id) = some config ∧
    p.approvalsWithout signer < (config.without signer).threshold

/-- The call neither vetoes an open proposal nor removes a signer without whom one falls short. -/
def SparesOpen (s : State) (_ : Env) : Call → Prop
  | .multisig (.vetoProposal id pid _) => ¬ s.IsOpen id pid
  | .multisig (.removeMultisigSigner id _ signer) => ∀ pid, ¬ s.FallsShort id signer pid
  | _ => True

/-! ## What a call does -/

/-- The list as it is stored. -/
def State.openList (s : State) (id : Nat) : List Nat := (s.get (.openProposals id)).getD []

/-- The numbers of the stored proposals are those up to the count, so that the next proposal takes a
free one. -/
def ProposalsCounted (s : State) (id : Nat) : Prop :=
  ∀ pid p, s.get (.multiSigProposal id pid) = some p →
    1 ≤ pid ∧ pid ≤ (s.get (.multiSigProposalCount id)).getD 0

/-- The proposals that the call closes without looking at the list: one that is vetoed, and those
that fall short when a signer leaves. -/
def Call.closesUnlisted (s : State) (id : Nat) : Call → Nat → Prop
  | .multisig (.vetoProposal v pid _) => fun i => v = id ∧ i = pid
  | .multisig (.removeMultisigSigner v _ signer) => fun i => v = id ∧ s.FallsShort id signer i
  | _ => fun _ => False

/-- What becomes of the open proposals of a vault and of their list. -/
inductive ListChange (c : Call) (s t : State) (id : Nat) : Prop
  | opened (pid : Nat) : ¬ s.IsOpen id pid → t.openList id = s.openList id ++ [pid] →
      (∀ i, t.IsOpen id i ↔ i = pid ∨ s.IsOpen id i) → (∀ i, ¬ c.closesUnlisted s id i) →
      ListChange c s t id
  | closed (pid : Nat) : t.openList id = (s.openList id).filter (· ≠ pid) →
      (∀ i, t.IsOpen id i ↔ i ≠ pid ∧ s.IsOpen id i) → (∀ i, ¬ c.closesUnlisted s id i) →
      ListChange c s t id
  | kept : t.openList id = s.openList id →
      (∀ i, t.IsOpen id i ↔ s.IsOpen id i ∧ ¬ c.closesUnlisted s id i) → ListChange c s t id

section Calls

variable {e : Env} {s t : State} {id i pid : Nat} {c : Call} {m : MultisigCall} {k : DataKey}
  {x : k.Value} {p q : MultiSigProposal} {l : List Nat} {caller : Address}

theorem openListExact_iff : OpenListExact s id ↔
    (s.openList id).Nodup ∧ ∀ pid, pid ∈ s.openList id ↔ s.IsOpen id pid := by
  have hread : ∀ e, listOpenProposals id e s = .ok (s.openList id, s) := fun e => by
    simp [listOpenProposals, State.openList]
  constructor
  · rintro ⟨l, hl, hnodup, hmem⟩
    obtain rfl : s.openList id = l :=
      (Prod.mk.inj (Except.ok.inj ((hread (signedBy [] 0)).symm.trans (hl (signedBy [] 0))))).1
    exact ⟨hnodup, hmem⟩
  · exact fun ⟨hnodup, hmem⟩ => ⟨_, hread, hnodup, hmem⟩

theorem sparesOpen_iff : SparesOpen s e c ↔
    ∀ id i, s.IsOpen id i → ¬ c.closesUnlisted s id i := by
  have hshort : ∀ {id signer i}, s.FallsShort id signer i → s.IsOpen id i :=
    fun ⟨p, _, hp, hpending, _⟩ => ⟨p, hp, .inl hpending⟩
  cases c with
  | multisig m =>
      cases m with
      | vetoProposal v pid a =>
          constructor
          · rintro h _ _ hopen ⟨rfl, rfl⟩
            exact h hopen
          · exact fun h hopen => h v pid hopen ⟨rfl, rfl⟩
      | removeMultisigSigner v a signer =>
          constructor
          · rintro h _ i _ ⟨rfl, hi⟩
            exact h i hi
          · exact fun h i hi => h v i (hshort hi) ⟨rfl, hi⟩
      | _ => exact iff_of_true trivial fun _ _ _ => id
  | _ => exact iff_of_true trivial fun _ _ _ => id

/-- An exact list stays exact if and only if the call closes no open proposal unlisted. -/
theorem ListChange.exact_iff (h : ListChange c s t id) (hs : OpenListExact s id) :
    OpenListExact t id ↔ ∀ i, s.IsOpen id i → ¬ c.closesUnlisted s id i := by
  obtain ⟨hnodup, hmem⟩ := openListExact_iff.mp hs
  rw [openListExact_iff]
  cases h with
  | opened pid hnew hlist hopen hnone =>
      refine iff_of_true ⟨?_, fun i => ?_⟩ fun i _ => hnone i
      · rw [hlist, List.nodup_append]
        refine ⟨hnodup, by simp, fun i hi j hj heq => hnew ?_⟩
        rw [← List.mem_singleton.mp hj, ← heq]
        exact (hmem i).mp hi
      · rw [hlist, hopen, List.mem_append, List.mem_singleton, hmem, or_comm]
  | closed pid hlist hopen hnone =>
      refine iff_of_true ⟨hlist ▸ hnodup.filter _, fun i => ?_⟩ fun i _ => hnone i
      rw [hlist, hopen, List.mem_filter, decide_eq_true_eq, hmem, and_comm]
  | kept hlist hopen =>
      rw [hlist]
      constructor
      · exact fun h i hi => ((hopen i).mp ((h.2 i).mp ((hmem i).mpr hi))).2
      · refine fun h => ⟨hnodup, fun i => ?_⟩
        rw [hmem, hopen]
        exact ⟨fun hi => ⟨hi, h i hi⟩, And.left⟩

/-! Updates of the storage -/

theorem isOpen_congr (h : t.get (.multiSigProposal id i) = s.get (.multiSigProposal id i)) :
    t.IsOpen id i ↔ s.IsOpen id i := by
  rw [State.IsOpen, State.IsOpen, h]

@[simp] theorem isOpen_put (h : ∀ j, k ≠ .multiSigProposal id j) :
    (s.put k x).IsOpen id i ↔ s.IsOpen id i :=
  isOpen_congr (State.get_put_of_ne (h i).symm)

theorem isOpen_put_proposal : (s.put (.multiSigProposal id pid) q).IsOpen id i ↔
    if i = pid then q.status = .pending ∨ q.status = .approved else s.IsOpen id i := by
  unfold State.IsOpen
  split
  case isTrue h =>
    subst h
    rw [State.get_put_self]
    simp
  case isFalse h => rw [State.get_put_of_ne (by simpa using h)]

@[simp] theorem openList_put (h : k ≠ .openProposals id) :
    (s.put k x).openList id = s.openList id := by
  rw [State.openList, State.get_put_of_ne h.symm, State.openList]

@[simp] theorem openList_put_openProposals :
    (s.put (.openProposals id) l).openList id = l := by
  rw [State.openList, State.get_put_self]
  rfl

@[simp] theorem ProposalsCounted.put_iff (h : ∀ j, k ≠ .multiSigProposal id j)
    (hcount : k ≠ .multiSigProposalCount id) :
    ProposalsCounted (s.put k x) id ↔ ProposalsCounted s id := by
  simp only [ProposalsCounted, State.get_put_of_ne (h _).symm, State.get_put_of_ne hcount.symm]

theorem ProposalsCounted.put_proposal (h : ProposalsCounted s id)
    (hp : s.get (.multiSigProposal id pid) = some p) :
    ProposalsCounted (s.put (.multiSigProposal id pid) q) id := by
  intro j r hr
  rw [State.get_put_of_ne (by simp)]
  by_cases hj : j = pid
  · exact hj ▸ h pid p hp
  · exact h j r (by simpa [hj] using hr)

/-! The calls about the proposals of the vault -/

/-- A call leaves the proposals of the vault as they are. -/
theorem listChange_of_same (hopen : ∀ i, t.IsOpen id i ↔ s.IsOpen id i)
    (hlist : t.openList id = s.openList id) (hnone : ∀ i, ¬ c.closesUnlisted s id i) :
    ListChange c s t id :=
  .kept hlist fun i => by rw [hopen, and_iff_left (hnone i)]

theorem removeFromOpenProposals_spec : wp (removeFromOpenProposals id pid) (fun _ t =>
    t.openList id = (s.openList id).filter (· ≠ pid) ∧ (∀ i, t.IsOpen id i ↔ s.IsOpen id i) ∧
      (ProposalsCounted s id → ProposalsCounted t id)) e s := by
  simp only [wp_removeFromOpenProposals]
  refine ⟨fun l hl => ⟨?_, by simp, (ProposalsCounted.put_iff (by simp) (by simp)).mpr⟩,
    fun hnone => ⟨?_, by simp, fun h => h⟩⟩
  · rw [openList_put_openProposals, State.openList, hl]
    rfl
  · rw [State.openList, hnone]
    rfl

theorem openList_congr (h : t.get (.openProposals id) = s.get (.openProposals id)) :
    t.openList id = s.openList id := by
  rw [State.openList, State.openList, h]

theorem ProposalsCounted.congr (h : ProposalsCounted s id)
    (hproposal : ∀ i, t.get (.multiSigProposal id i) = s.get (.multiSigProposal id i))
    (hcount : t.get (.multiSigProposalCount id) = s.get (.multiSigProposalCount id)) :
    ProposalsCounted t id := by
  intro i p hp
  rw [hproposal] at hp
  rw [hcount]
  exact h i p hp

/-- A proposal that is no longer open is taken off the list. -/
theorem close_change {u : State} (h : ProposalsCounted s id)
    (hp : s.get (.multiSigProposal id pid) = some p)
    (hq : ¬ (q.status = .pending ∨ q.status = .approved))
    (hu : ∀ k : DataKey, k.area = .multisig →
      u.get k = (s.put (.multiSigProposal id pid) q).get k)
    (hnone : ∀ i, ¬ c.closesUnlisted s id i) :
    wp (removeFromOpenProposals id pid) (fun _ t => ListChange c s t id ∧ ProposalsCounted t id) e
      u := by
  refine Tx.wp_mono removeFromOpenProposals_spec fun _ t ⟨hlist, hopen, hcounted⟩ => ?_
  refine ⟨.closed pid ?_ (fun i => ?_) hnone, hcounted ?_⟩
  · rw [hlist, openList_congr (hu _ rfl), openList_put (by simp)]
  · rw [hopen, isOpen_congr (hu _ rfl), isOpen_put_proposal]
    split
    case isTrue hi => simp [hi, hq]
    case isFalse hi => simp [hi]
  · exact (h.put_proposal hp).congr (fun _ => hu _ rfl) (hu _ rfl)

theorem proposeMultisig_change {op : MultiSigOperation} {payload : Bytes} {a : Option Address}
    (h : ProposalsCounted s id) : wp (proposeMultisig id caller op payload a) (fun _ t =>
      ListChange (.multisig (.proposeMultisig id caller op payload a)) s t id ∧
        ProposalsCounted t id) e s := by
  simp only [proposeMultisig, loadLockedByOwner, Tx.wp_bind, wp_requireAuth, wp_loadVault,
    wp_require, wp_storageGet, Tx.wp_fromSome, wp_u64, wp_timestamp, Tx.wp_pure, wp_storageSet]
  intro _ _ _ _ _ _ _ _ _
  have hbound := h
  unfold ProposalsCounted at hbound
  generalize (s.get (.multiSigProposalCount id)).getD 0 = n at hbound ⊢
  have hnew : ¬ s.IsOpen id (n + 1) := by
    rintro ⟨p, hp, -⟩
    exact Nat.not_succ_le_self n (hbound _ p hp).2
  refine ⟨.opened (n + 1) hnew ?_ (fun i => ?_) fun _ h => h, fun j p hp => ?_⟩
  · rw [openList_put_openProposals, State.get_put_of_ne (by simp), State.get_put_of_ne (by simp),
      State.openList]
  · rw [isOpen_put (by simp), isOpen_put (by simp), isOpen_put_proposal]
    split
    case isTrue hi => simp [hi]
    case isFalse hi => simp [hi]
  · rw [State.get_put_of_ne (by simp), State.get_put_self, Option.getD_some]
    rw [State.get_put_of_ne (by simp), State.get_put_of_ne (by simp)] at hp
    by_cases hj : j = n + 1
    · omega
    · rw [State.get_put_of_ne (by simpa using hj)] at hp
      have hj' := hbound j p hp
      omega

theorem approveMultisig_change (h : ProposalsCounted s id) :
    wp (approveMultisig id pid caller) (fun _ t =>
      ListChange (.multisig (.approveMultisig id pid caller)) s t id ∧ ProposalsCounted t id) e s := by
  simp only [approveMultisig, loadConfigBySigner, Tx.wp_bind, wp_requireAuth, wp_loadVault,
    wp_require, wp_storageGet, Tx.wp_fromSome, wp_loadProposal, wp_timestamp, Tx.wp_pure, wp_storageSet]
  intro _ config _ v _ _ p hp hpending _ _
  refine ⟨listChange_of_same (fun i => ?_) (by simp) fun _ h => h, h.put_proposal hp⟩
  rw [isOpen_put_proposal]
  split
  case isTrue hi =>
    subst hi
    refine iff_of_true ?_ ⟨p, hp, .inl hpending⟩
    show (if _ then _ else p.status) = _ ∨ (if _ then _ else p.status) = _
    split
    · exact .inr rfl
    · exact .inl hpending
  case isFalse => rfl

theorem rejectMultisig_change (h : ProposalsCounted s id) :
    wp (rejectMultisig id pid caller) (fun _ t =>
      ListChange (.multisig (.rejectMultisig id pid caller)) s t id ∧ ProposalsCounted t id) e s := by
  simp only [rejectMultisig, Tx.wp_bind, wp_requireAuth, wp_loadVault, wp_require, wp_loadProposal,
    wp_storageSet]
  intro _ v _ _ p hp hpending
  exact close_change h hp (by simp) (fun _ _ => rfl) fun _ h => h

theorem vetoProposal_change (h : ProposalsCounted s id) :
    wp (vetoProposal id pid caller) (fun _ t =>
      ListChange (.multisig (.vetoProposal id pid caller)) s t id ∧ ProposalsCounted t id) e s := by
  simp only [vetoProposal, loadConfigBySigner, Tx.wp_bind, wp_requireAuth, wp_loadVault,
    wp_require, wp_storageGet, Tx.wp_fromSome, wp_loadProposal, Tx.wp_pure, wp_storageSet]
  intro _ config _ v _ _ p hp _
  refine ⟨.kept (by simp) fun i => ?_, h.put_proposal hp⟩
  rw [isOpen_put_proposal]
  split
  case isTrue hi => simp [Call.closesUnlisted, hi]
  case isFalse hi => simp [Call.closesUnlisted, hi]

/-! The removal of a signer -/

/-- The proposal after the removal of a signer. -/
def MultiSigProposal.rejectShort (threshold : Nat) (signer : Address) (p : MultiSigProposal) :
    MultiSigProposal :=
  if p.status = .pending ∧ p.approvalsWithout signer < threshold then
    { p with status := .rejected }
  else p

/-- The state after one round of the removal. -/
def State.rejectShort (id threshold : Nat) (signer : Address) (s : State) (pid : Nat) : State :=
  match s.get (.multiSigProposal id pid) with
  | some p => if p.status = .pending ∧ p.approvalsWithout signer < threshold then
      s.put (.multiSigProposal id pid) { p with status := .rejected } else s
  | none => s

variable {threshold : Nat} {signer : Address} {pids : List Nat}

theorem rejectIfShort_spec : wp (rejectIfShort id threshold signer pid)
    (fun _ t => t = s.rejectShort id threshold signer pid ∧ True) e s := by
  simp only [rejectIfShort, Tx.wp_bind, wp_storageGet, Tx.wp_ifSome, Tx.wp_onlyIf, wp_storageSet,
    and_true, State.rejectShort]
  refine ⟨fun p hp => ⟨fun hshort => ?_, fun hshort => ?_⟩, fun hnone => ?_⟩
  · rw [hp]
    exact (if_pos hshort).symm
  · rw [hp]
    exact (if_neg hshort).symm
  · rw [hnone]

theorem get_rejectShort : (s.rejectShort id threshold signer pid).get (.multiSigProposal id i) =
    if i = pid then (s.get (.multiSigProposal id pid)).map (·.rejectShort threshold signer)
    else s.get (.multiSigProposal id i) := by
  by_cases hi : i = pid
  · subst hi
    rw [if_pos rfl, State.rejectShort]
    cases hp : s.get (.multiSigProposal id i) with
    | none => exact hp
    | some p =>
        rw [Option.map_some, MultiSigProposal.rejectShort]
        show State.get (if _ then _ else _) _ = _
        split
        · exact State.get_put_self
        · exact hp
  · rw [if_neg hi, State.rejectShort]
    split
    · split
      · exact State.get_put_of_ne (by simpa using hi)
      · rfl
    · rfl

theorem get_rejectShort_of_ne (hk : ∀ j, k ≠ .multiSigProposal id j) :
    (s.rejectShort id threshold signer pid).get k = s.get k := by
  unfold State.rejectShort
  split
  · split
    · exact State.get_put_of_ne (hk _)
    · rfl
  · rfl

theorem rejectShort_idem : (p.rejectShort threshold signer).rejectShort threshold signer =
    p.rejectShort threshold signer := by
  unfold MultiSigProposal.rejectShort
  split
  · exact if_neg (by simp)
  · rfl

/-- The whole loop rejects those of the listed proposals that fall short. -/
theorem get_foldl_rejectShort :
    (pids.foldl (State.rejectShort id threshold signer) s).get (.multiSigProposal id i) =
      if i ∈ pids then (s.get (.multiSigProposal id i)).map (·.rejectShort threshold signer)
      else s.get (.multiSigProposal id i) := by
  induction pids generalizing s with
  | nil => rfl
  | cons j js ih =>
      rw [List.foldl_cons, ih, get_rejectShort]
      by_cases hi : i = j
      · subst hi
        rw [if_pos rfl, if_pos List.mem_cons_self, Option.map_map]
        split
        · congr 1
          exact funext fun p => rejectShort_idem
        · rfl
      · rw [if_neg hi]
        exact if_congr (by simp [hi]) rfl rfl

theorem get_foldl_rejectShort_of_ne (hk : ∀ j, k ≠ .multiSigProposal id j) :
    (pids.foldl (State.rejectShort id threshold signer) s).get k = s.get k := by
  induction pids generalizing s with
  | nil => rfl
  | cons j js ih => rw [List.foldl_cons, ih, get_rejectShort_of_ne hk]

theorem isOpen_iff_map {f : MultiSigProposal → MultiSigProposal}
    (h : t.get (.multiSigProposal id i) = (s.get (.multiSigProposal id i)).map f) :
    t.IsOpen id i ↔ ∃ p, s.get (.multiSigProposal id i) = some p ∧
      ((f p).status = .pending ∨ (f p).status = .approved) := by
  rw [State.IsOpen, h]
  constructor
  · rintro ⟨q, hq, hopen⟩
    obtain ⟨p, hp, rfl⟩ := Option.map_eq_some_iff.mp hq
    exact ⟨p, hp, hopen⟩
  · rintro ⟨p, hp, hopen⟩
    exact ⟨f p, Option.map_eq_some_iff.mpr ⟨p, hp, rfl⟩, hopen⟩

/-- After the loop a proposal is open if it was and did not fall short. -/
theorem isOpen_rejectShort_iff {config : MultiSigConfig}
    (hconfig : s.get (.multiSigConfig id) = some config) :
    (∃ p, s.get (.multiSigProposal id i) = some p ∧
      ((p.rejectShort (config.without signer).threshold signer).status = .pending ∨
        (p.rejectShort (config.without signer).threshold signer).status = .approved)) ↔
      s.IsOpen id i ∧ ¬ s.FallsShort id signer i := by
  constructor
  · rintro ⟨p, hp, hopen⟩
    unfold MultiSigProposal.rejectShort at hopen
    split at hopen
    case isTrue => simp at hopen
    case isFalse hnot =>
      refine ⟨⟨p, hp, hopen⟩, fun ⟨q, config', hq, hpending, hconfig', hshort⟩ => hnot ?_⟩
      obtain rfl := Option.some.inj (hp.symm.trans hq)
      obtain rfl := Option.some.inj (hconfig.symm.trans hconfig')
      exact ⟨hpending, hshort⟩
  · rintro ⟨⟨p, hp, hopen⟩, hnot⟩
    have hkeep : p.rejectShort (config.without signer).threshold signer = p :=
      if_neg fun h => hnot ⟨p, config, hp, h.1, hconfig, h.2⟩
    exact ⟨p, hp, by rwa [hkeep]⟩

/-- What the removal of a signer leaves in the storage. -/
theorem removeMultisigSigner_get (h : ProposalsCounted s id) :
    wp (removeMultisigSigner id caller signer) (fun _ t => ∃ config,
      s.get (.multiSigConfig id) = some config ∧
      (∀ i, t.get (.multiSigProposal id i) = (s.get (.multiSigProposal id i)).map
        (·.rejectShort (config.without signer).threshold signer)) ∧
      ∀ k : DataKey, (∀ j, k ≠ .multiSigProposal id j) → k ≠ .multiSigConfig id →
        t.get k = s.get k) e s := by
  simp only [removeMultisigSigner, Tx.wp_bind, wp_requireAuth, wp_loadVault, wp_require,
    wp_storageGet, Tx.wp_fromSome, wp_storageSet]
  intro _ v _ _ config hconfig _
  refine Tx.wp_mono (Tx.wp_forEach_foldl fun _ _ => rejectIfShort_spec) ?_
  rintro _ t ⟨rfl, -⟩
  have hcount : ((s.put (.multiSigConfig id) (config.without signer)).get
      (.multiSigProposalCount id)).getD 0 = (s.get (.multiSigProposalCount id)).getD 0 := by
    rw [State.get_put_of_ne (by simp)]
  rw [hcount]
  refine ⟨config, hconfig, fun i => ?_, fun k hk hne => ?_⟩
  · rw [get_foldl_rejectShort, State.get_put_of_ne (by simp)]
    split
    case isTrue => rfl
    case isFalse hi =>
      -- every stored proposal is one of those that the loop visits
      cases hp : s.get (.multiSigProposal id i) with
      | none => rfl
      | some p =>
          obtain ⟨hlow, hhigh⟩ := h i p hp
          exact absurd (List.mem_range'_1.mpr ⟨hlow, by omega⟩) hi
  · rw [get_foldl_rejectShort_of_ne hk, State.get_put_of_ne hne]

theorem removeMultisigSigner_change (h : ProposalsCounted s id) :
    wp (removeMultisigSigner id caller signer) (fun _ t =>
      ListChange (.multisig (.removeMultisigSigner id caller signer)) s t id ∧
        ProposalsCounted t id) e s := by
  refine Tx.wp_mono (removeMultisigSigner_get h) ?_
  rintro _ t ⟨config, hconfig, hget, hother⟩
  refine ⟨.kept (openList_congr (hother _ (by simp) (by simp))) fun i => ?_, fun i q hq => ?_⟩
  · rw [isOpen_iff_map (hget i), isOpen_rejectShort_iff hconfig]
    exact and_congr_right fun _ => not_congr (and_iff_right rfl).symm
  · rw [hget] at hq
    obtain ⟨p, hp, -⟩ := Option.map_eq_some_iff.mp hq
    rw [hother _ (by simp) (by simp)]
    exact h i p hp

theorem executeMultisig_change (h : ProposalsCounted s id) :
    wp (executeMultisig id pid caller) (fun _ t =>
      ListChange (.multisig (.executeMultisig id pid caller)) s t id ∧ ProposalsCounted t id) e s := by
  simp only [executeMultisig, loadExecutable, Tx.wp_bind, wp_requireAuth, wp_loadVault, wp_require,
    wp_loadProposal, wp_timestamp, Tx.wp_pure, wp_storageSet]
  intro _ v hv _ p hp _ _
  refine Tx.wp_mono (performOperation_frame (by simpa using hv)) fun _ t hframe => ?_
  exact close_change h hp (by simp) (fun k hk => hframe.get_of_area (by simp [hk])) fun _ h => h

/-- The vault whose proposals the call is about. -/
def MultisigCall.vault : MultisigCall → Nat
  | .configureMultisig v _ _ _ | .removeMultisig v _ | .removeMultisigSigner v _ _
  | .proposeMultisig v _ _ _ _ | .approveMultisig v _ _ | .rejectMultisig v _ _
  | .vetoProposal v _ _ | .executeMultisig v _ _ => v

theorem execMultisig_change (h : ProposalsCounted s m.vault) :
    wp (execMultisig m) (fun _ t => ListChange (.multisig m) s t m.vault ∧
      ProposalsCounted t m.vault) e s := by
  cases m with
  | configureMultisig v a l n =>
      simp [execMultisig, configureMultisig, MultisigCall.vault]
      intros
      exact ⟨listChange_of_same (by simp) (by simp) fun _ h => h, h⟩
  | removeMultisig v a =>
      simp [execMultisig, removeMultisig, MultisigCall.vault]
      intros
      refine ⟨listChange_of_same (fun i => isOpen_congr ?_) (openList_congr ?_) fun _ h => h,
        h.congr (fun i => ?_) ?_⟩ <;> exact State.get_erase_of_ne (by simp)
  | removeMultisigSigner => exact removeMultisigSigner_change h
  | proposeMultisig =>
      simp only [execMultisig, Tx.wp_bind, Tx.wp_pure]
      exact proposeMultisig_change h
  | approveMultisig => exact approveMultisig_change h
  | rejectMultisig => exact rejectMultisig_change h
  | vetoProposal => exact vetoProposal_change h
  | executeMultisig => exact executeMultisig_change h

/-- Proposals are written by the calls about them. -/
theorem Call.multisig_writer (h : .multisig ∈ (c.footprint s).areas) : ∃ m, c = .multisig m := by
  cases c with
  | multisig m => exact ⟨m, rfl⟩
  | _ => simpa [Call.areas] using Call.mem_areas h

theorem MultisigCall.vaults_footprint : m.footprint.vaults = [m.vault] := by
  cases m <;> rfl

theorem closesUnlisted_vault (h : (Call.multisig m).closesUnlisted s id i) : m.vault = id := by
  cases m <;> first | exact h.1 | exact h.elim

theorem multisig_of_closesUnlisted (h : c.closesUnlisted s id i) : ∃ m, c = .multisig m := by
  cases c <;> first | exact ⟨_, rfl⟩ | exact h.elim

/-- What a call does to the open proposals of a vault and to their list. -/
theorem exec_proposals (hnum : s.Numbered) (h : ProposalsCounted s id) :
    wp (exec c) (fun _ t => ListChange c s t id ∧ ProposalsCounted t id) e s := by
  intro _ t hexec
  have hframe : Frame (c.footprint s) s t := exec_frame c hnum _ _ hexec
  have hsame : (∀ k : DataKey, k.area = .multisig → k.vaultId? = some id → t.get k = s.get k) →
      (∀ i, ¬ c.closesUnlisted s id i) → ListChange c s t id ∧ ProposalsCounted t id :=
    fun hkeys hnone => ⟨listChange_of_same (fun i => isOpen_congr (hkeys _ rfl rfl))
      (openList_congr (hkeys _ rfl rfl)) hnone, h.congr (fun i => hkeys _ rfl rfl) (hkeys _ rfl rfl)⟩
  by_cases hc : ∃ m, c = .multisig m
  · obtain ⟨m, rfl⟩ := hc
    by_cases hid : m.vault = id
    · subst hid
      exact execMultisig_change h _ _ hexec
    · refine hsame (fun k _ hk => hframe.get_of_vault hk ?_) fun i hi => hid (closesUnlisted_vault hi)
      rw [Call.footprint, MultisigCall.vaults_footprint, List.mem_singleton]
      exact Ne.symm hid
  · refine hsame (fun k hk _ => hframe.get_of_area ?_) fun i hi => hc (multisig_of_closesUnlisted hi)
    simpa [hk] using mt Call.multisig_writer hc

theorem counted_of_genesis {w : World} (h : Genesis w) : ProposalsCounted w.state id := by
  intro i p hp
  rw [h.get (by simp)] at hp
  cases hp

theorem exact_of_genesis {w : World} (h : Genesis w) : OpenListExact w.state id := by
  have hnone : w.state.openList id = [] := by
    rw [State.openList, h.get (by simp)]
    rfl
  refine openListExact_iff.mpr ⟨hnone ▸ List.nodup_nil, fun i => ?_⟩
  rw [hnone]
  refine iff_of_false List.not_mem_nil fun ⟨p, hp, _⟩ => ?_
  rw [h.get (by simp)] at hp
  cases hp

/-! ## Every run -/

variable {w w₀ : World} {ks : List Event}

/-- Where a removal rejects no proposal, it rejects only hopeless ones. -/
theorem rejectsOnlyHopeless_of_spares (h : SparesOpen s e c) (hcounted : ∀ id, ProposalsCounted s id)
    (hexec : exec c e s = .ok ((), t)) : RejectsOnlyHopeless e s t c := by
  unfold RejectsOnlyHopeless
  split
  case h_1 v a signer =>
    intro i p q _ _ hp hpending hq hrejected
    obtain ⟨config, hconfig, hget, -⟩ := removeMultisigSigner_get (hcounted v) _ _ hexec
    have hnot : ¬ (p.status = .pending ∧
        p.approvalsWithout signer < (config.without signer).threshold) :=
      fun hshort => h i ⟨p, config, hp, hshort.1, hconfig, hshort.2⟩
    rw [hget, hp, Option.map_some, MultiSigProposal.rejectShort, if_neg hnot] at hq
    obtain rfl := Option.some.inj hq
    cases hpending.symm.trans hrejected
  case h_2 => trivial

theorem exact_of_guarded_run (h₀ : Genesis w₀)
    (hrun : Run (Guarded Step (OnCalls SparesOpen)) w₀ ks w) :
    ∀ id, OpenListExact w.state id ∧ ProposalsCounted w.state id := by
  refine invariant_of_calls (I := fun s => ∀ id, OpenListExact s id ∧ ProposalsCounted s id) h₀ hrun
    (fun id => ⟨exact_of_genesis h₀, counted_of_genesis h₀⟩) (fun hnum h hc => ?_)
    fun l h id => ⟨?_, (h id).2⟩
  · intro _ t hexec id
    obtain ⟨hchange, hcounted⟩ := exec_proposals hnum (h id).2 _ _ hexec
    exact ⟨(hchange.exact_iff (h id).1).mpr (sparesOpen_iff.mp hc id), hcounted⟩
  · have hexact := openListExact_iff.mp (h id).1
    exact openListExact_iff.mpr hexact

/-- In every run whose calls spare the open proposals, the lists are exact. The next call keeps
them exact, and rejects only hopeless proposals, if and only if it spares them as well. -/
theorem open_proposals_exact_iff (h₀ : Genesis w₀)
    (hrun : Run (Guarded Step (OnCalls SparesOpen)) w₀ ks w) :
    (∀ id, OpenListExact w.state id) ∧ ∀ e c w', Step w (.call e c) w' →
      ((∀ id, OpenListExact w'.state id) ∧ RejectsOnlyHopeless e w.state w'.state c ↔
        SparesOpen w.state e c) := by
  have h := exact_of_guarded_run h₀ hrun
  refine ⟨fun id => (h id).1, fun e c w' hstep => ?_⟩
  cases hstep with
  | call _ hexec =>
      have hnum := numbered_of_run hrun.unguard h₀
      have hchange := fun id => (exec_proposals hnum (h id).2 _ _ hexec).1
      constructor
      · exact fun hexact => sparesOpen_iff.mpr fun id =>
          ((hchange id).exact_iff (h id).1).mp (hexact.1 id)
      · exact fun hspares => ⟨fun id => ((hchange id).exact_iff (h id).1).mpr
          (sparesOpen_iff.mp hspares id),
            rejectsOnlyHopeless_of_spares hspares (fun id => (h id).2) hexec⟩

end Calls

/-- A proposal is listed, and rejecting it takes it off the list. -/
theorem open_proposals_exact_rejected : ∃ w w' : World, Reachable w ∧ w.state.openList 1 = [1] ∧
    Step w (.call (signedBy [⟨1⟩] 5) (.multisig (.rejectMultisig 1 1 ⟨1⟩))) w' ∧
      ∀ id, OpenListExact w'.state id := by
  have hplay : (play (initialised ⟨8⟩ ⟨9⟩)
      [opensVault 100,
        (signedBy [⟨1⟩] 0, .multisig (.configureMultisig 1 ⟨1⟩ [⟨3⟩, ⟨4⟩] 2)),
        (signedBy [⟨1⟩] 0, .multisig (.proposeMultisig 1 ⟨1⟩ .cancelVault [] none))]).any (fun w =>
      (play w [(signedBy [⟨1⟩] 5, .multisig (.rejectMultisig 1 1 ⟨1⟩))]).any fun _ =>
        decide (w.state.openList 1 = [1])) = true := by
    decide +kernel
  obtain ⟨w, hw, hplay⟩ := (Option.any_eq_true _ _).mp hplay
  obtain ⟨w', hw', hlist⟩ := (Option.any_eq_true _ _).mp hplay
  have hnext := (open_proposals_exact_iff (genesis_initialised (by decide) (by decide))
    (guarded_of_play (by simp [SparesOpen]) hw)).2 _ _ _ (step_of_play hw')
  exact ⟨w, w', reachable_of_play hw, of_decide_eq_true hlist, step_of_play hw', (hnext.mpr trivial).1⟩

/-- A co-signer is removed while a proposal waits: the proposal is rejected, although the other
co-signer could still approve it, and stays on the list. -/
theorem removal_rejects_viable : ¬ ∀ (w₀ w : World) (ks : List Event), Genesis w₀ →
    Run Step w₀ ks w → (∀ id, OpenListExact w.state id) ∧
      ∀ e c w', Step w (.call e c) w' → RejectsOnlyHopeless e w.state w'.state c := by
  have hplay : (play (initialised ⟨8⟩ ⟨9⟩)
      [opensVault 100,
        (signedBy [⟨1⟩] 0, .multisig (.configureMultisig 1 ⟨1⟩ [⟨3⟩, ⟨4⟩] 2)),
        (signedBy [⟨1⟩] 0, .multisig (.proposeMultisig 1 ⟨1⟩ .cancelVault [] none)),
        (signedBy [⟨1⟩] 0, .multisig (.removeMultisigSigner 1 ⟨1⟩ ⟨4⟩))]).any (fun w =>
      (w.state.get (.multiSigProposal 1 1)).any fun p => decide (p.status = .rejected) &&
        decide (w.state.openList 1 = [1])) = true := by
    decide +kernel
  obtain ⟨w, hw, hchecks⟩ := (Option.any_eq_true _ _).mp hplay
  simp only [Bool.and_eq_true, Option.any_eq_true, decide_eq_true_eq] at hchecks
  obtain ⟨p, hp, hrejected, hlist⟩ := hchecks
  intro h
  obtain ⟨-, hmem⟩ := openListExact_iff.mp
    ((h _ w _ (genesis_initialised (by decide) (by decide)) (run_of_play hw)).1 1)
  obtain ⟨q, hq, hopen⟩ := (hmem 1).mp (by rw [hlist]; exact List.mem_singleton.mpr rfl)
  obtain rfl := Option.some.inj (hp.symm.trans hq)
  rw [hrejected] at hopen
  simp at hopen

end Heirloom
