import Mathlib.Data.List.Dedup
import Heirloom.Results.OpenProposals

/-!
# The life of a proposal

A proposal is ready for its execution when it is marked approved. The mark is set by an
approval that brings the number of approvals to the threshold, and by nothing else; the
threshold, the signers and the status of the vault change underneath it.

* `proposal_lives`: in every run whose calls keep the marks in step with the configuration, a
  proposal is executed once at most, never after it was rejected or vetoed or has expired and
  only in a locked vault, and the owner can execute it exactly when the threshold is reached.
  The next call keeps the marks in step if and only if it meets the same condition.
* `owner_alone_stuck`: with threshold 1 the proposal of the owner is never ready.
-/

namespace Heirloom

open Transaction Runs

/-! ## What the mark is for -/

/-- The proposal is over: it has been rejected, vetoed or executed, and nothing takes it up again.
-/
def MultiSigProposal.Over (p : MultiSigProposal) : Prop :=
  p.status = .rejected ∨ p.status = .vetoed ∨ p.status = .executed

/-- The proposal is live at `now`: neither rejected, vetoed or executed, nor past its time. -/
structure MultiSigProposal.Live (p : MultiSigProposal) (now : Nat) : Prop where
  unexpired : now ≤ p.expiresAt
  unfinished : ¬ p.Over

/-- As many different addresses have approved as the configured threshold asks for. -/
def State.ReachesThreshold (s : State) (id : Nat) (p : MultiSigProposal) : Prop :=
  ∃ config, s.get (.multiSigConfig id) = some config ∧
    config.threshold ≤ p.approvals.dedup.length

/-- The owner of vault `id` passes all the checks of `execute_multisig` for the proposal. -/
def State.CanExecute (s : State) (e : Env) (id pid : Nat) (owner : Address) : Prop :=
  ∃ r, loadExecutable id pid owner e s = .ok r

/-- At `now` the live proposals of vault `id` are marked approved exactly if they may be
executed. -/
def State.ReadyAt (s : State) (now id : Nat) : Prop :=
  ∀ pid v p, s.vault id = some v → s.get (.multiSigProposal id pid) = some p → p.Live now →
    (p.status = .approved ↔ v.status = .locked ∧ s.ReachesThreshold id p)

/-- Proposal `pid` of vault `id` is stored, and has been rejected, vetoed or executed. -/
def State.Closed (s : State) (id pid : Nat) : Prop :=
  ∃ p, s.get (.multiSigProposal id pid) = some p ∧ p.Over

/-- The event executes the proposal. -/
def Event.executes (id pid : Nat) : Event → Bool
  | .call _ (.multisig (.executeMultisig i j _)) => decide (i = id ∧ j = pid)
  | _ => false

/-- How often a run has executed the proposal. -/
def executions (id pid : Nat) (ks : List Event) : Nat := ks.countP (Event.executes id pid)

/-- The call leaves the marks in step with the thresholds: a configuration puts the threshold on
the side of the approvals where the mark has it, a proposal needs more than the owner, an
approval completes one only in a locked vault. -/
def KeepsMarks (s : State) (e : Env) : Call → Prop
  | .multisig (.configureMultisig id _ _ threshold) =>
      ∀ pid p, s.get (.multiSigProposal id pid) = some p → p.Live e.timestamp →
        (p.status = .approved ↔ threshold ≤ p.approvals.length)
  | .multisig (.removeMultisig id _) =>
      ∀ v pid p, s.vault id = some v → s.get (.multiSigProposal id pid) = some p →
        p.Live e.timestamp → p.status ≠ .approved
  | .multisig (.removeMultisigSigner id _ signer) =>
      ∀ v config pid p, s.vault id = some v → v.status = .locked →
        s.get (.multiSigConfig id) = some config → s.get (.multiSigProposal id pid) = some p →
        p.Live e.timestamp → p.status = .pending →
        p.approvalsWithout signer < (config.without signer).threshold
  | .multisig (.proposeMultisig id _ _ _ _) =>
      ∀ config, s.get (.multiSigConfig id) = some config → 1 < config.threshold
  | .multisig (.approveMultisig id pid _) =>
      ∀ v config p, s.vault id = some v → v.status ≠ .locked →
        s.get (.multiSigConfig id) = some config → s.get (.multiSigProposal id pid) = some p →
        p.approvals.length + 1 < config.threshold
  | _ => True

/-- The call takes no vault out of its locked status that has an approved live proposal other
than the one it executes. -/
def SparesApproved (s : State) (e : Env) (c : Call) : Prop :=
  ∀ t, exec c e s = .ok ((), t) → ∀ id v v', s.vault id = some v → v.status = .locked →
    t.vault id = some v' → v'.status ≠ .locked →
    ∀ pid p, s.get (.multiSigProposal id pid) = some p → p.Live e.timestamp →
      p.status = .approved → ∃ a, c = .multisig (.executeMultisig id pid a)

/-- The condition on calls: each leaves the marks of the proposals in step with the threshold, and
spares vaults that have an approved live proposal. -/
def InStep (s : State) (e : Env) (c : Call) : Prop := KeepsMarks s e c ∧ SparesApproved s e c

section Lives

variable {e : Env} {s t : State} {id pid now : Nat} {v : Vault} {p q : MultiSigProposal} {c : Call}
  {m : MultisigCall} {caller : Address}

theorem canExecute_iff (hv : s.vault id = some v) (hp : s.get (.multiSigProposal id pid) = some p)
    (hauth : e.authorized v.owner = true) (hexpires : e.timestamp ≤ p.expiresAt) :
    s.CanExecute e id pid v.owner ↔ p.status = .approved := by
  have hpass : p.status = .approved → loadExecutable id pid v.owner e s = .ok ((v, p), s) := by
    intro happroved
    simp [loadExecutable, loadProposal, hv, hp, hauth, hexpires, happroved]
  constructor
  · rintro ⟨r, hr⟩
    have hchecks : wp (loadExecutable id pid v.owner) (fun _ _ => p.status = .approved) e s := by
      simp only [loadExecutable, Tx.wp_bind, wp_requireAuth, wp_loadVault, wp_require,
        wp_loadProposal, wp_timestamp, Tx.wp_pure]
      intro _ _ _ _ p' hp' happroved _
      obtain rfl := Option.some.inj (hp.symm.trans hp')
      exact happroved
    exact hchecks _ _ hr
  · exact fun happroved => ⟨_, hpass happroved⟩

/-! ## What the calls write -/

/-- The proposals of a vault are counted, belong to a vault and carry each approval once. -/
structure State.ProposalsSound (s : State) : Prop where
  counted : ∀ id, ProposalsCounted s id
  placed : ∀ id pid p, s.get (.multiSigProposal id pid) = some p → ∃ v, s.vault id = some v
  nodup : ∀ id pid p, s.get (.multiSigProposal id pid) = some p → p.approvals.Nodup
  known : ∀ id pid p, s.get (.multiSigProposal id pid) = some p → p.status ≠ .expired

/-- One proposal of vault `id` is written, and the configuration is not. -/
structure Writes (id pid : Nat) (q : MultiSigProposal) (s t : State) : Prop where
  proposals : ∀ i, t.get (.multiSigProposal id i) =
    if i = pid then some q else s.get (.multiSigProposal id i)
  config : t.get (.multiSigConfig id) = s.get (.multiSigConfig id)

/-- What a call about proposals does to those of its vault and to the configuration. -/
inductive Revision (e : Env) (s t : State) : MultisigCall → Prop
  | configured {id threshold : Nat} {a : Address} {signers : List Address} (v : Vault) :
      s.vault id = some v → v.status = .locked →
      (∀ i, t.get (.multiSigProposal id i) = s.get (.multiSigProposal id i)) →
      t.get (.multiSigConfig id) = some ⟨signers, threshold⟩ →
      Revision e s t (.configureMultisig id a signers threshold)
  | removed {id : Nat} {a : Address} (v : Vault) :
      s.vault id = some v →
      (∀ i, t.get (.multiSigProposal id i) = s.get (.multiSigProposal id i)) →
      t.get (.multiSigConfig id) = none → Revision e s t (.removeMultisig id a)
  | reduced {id : Nat} {a signer : Address} (v : Vault) (config : MultiSigConfig) :
      s.vault id = some v → s.get (.multiSigConfig id) = some config →
      (∀ i, t.get (.multiSigProposal id i) = (s.get (.multiSigProposal id i)).map
        (·.rejectShort (config.without signer).threshold signer)) →
      t.get (.multiSigConfig id) = some (config.without signer) →
      Revision e s t (.removeMultisigSigner id a signer)
  | proposed {id pid : Nat} {a : Address} {op : MultiSigOperation} {payload : Bytes}
      {address : Option Address} (v : Vault) (config : MultiSigConfig) (q : MultiSigProposal) :
      s.vault id = some v → v.status = .locked → s.get (.multiSigConfig id) = some config →
      s.get (.multiSigProposal id pid) = none → q.approvals = [a] → q.status = .pending →
      e.timestamp ≤ q.expiresAt → Writes id pid q s t →
      Revision e s t (.proposeMultisig id a op payload address)
  | approved {id pid : Nat} {a : Address} (v : Vault) (config : MultiSigConfig)
      (p : MultiSigProposal) :
      s.vault id = some v → s.get (.multiSigConfig id) = some config →
      s.get (.multiSigProposal id pid) = some p → p.status = .pending →
      e.timestamp ≤ p.expiresAt → a ∉ p.approvals →
      Writes id pid (p.approvedBy a config.threshold) s t →
      Revision e s t (.approveMultisig id pid a)
  | rejected {id pid : Nat} {a : Address} (v : Vault) (p : MultiSigProposal) :
      s.vault id = some v → s.get (.multiSigProposal id pid) = some p → p.status = .pending →
      Writes id pid { p with status := .rejected } s t → Revision e s t (.rejectMultisig id pid a)
  | vetoed {id pid : Nat} {a : Address} (v : Vault) (p : MultiSigProposal) :
      s.vault id = some v → s.get (.multiSigProposal id pid) = some p →
      Writes id pid { p with status := .vetoed } s t → Revision e s t (.vetoProposal id pid a)
  | executed {id pid : Nat} {a : Address} (v : Vault) (p : MultiSigProposal) :
      s.vault id = some v → s.get (.multiSigProposal id pid) = some p → p.status = .approved →
      e.timestamp ≤ p.expiresAt → Writes id pid { p with status := .executed } s t →
      Revision e s t (.executeMultisig id pid a)

theorem writes_put : Writes id pid q s (s.put (.multiSigProposal id pid) q) where
  proposals := fun i => by
    rcases eq_or_ne i pid with rfl | hi
    · rw [if_pos rfl]
      exact State.get_put_self
    · rw [if_neg hi]
      exact State.get_put_of_ne (by simpa using hi)
  config := State.get_put_of_ne (by simp)

/-- Other keys may be written as well. -/
theorem Writes.put {k : DataKey} {x : k.Value} (h : Writes id pid q s t)
    (hproposal : ∀ i, k ≠ .multiSigProposal id i) (hconfig : k ≠ .multiSigConfig id) :
    Writes id pid q s (t.put k x) where
  proposals := fun i => (State.get_put_of_ne (hproposal i).symm).trans (h.proposals i)
  config := (State.get_put_of_ne hconfig.symm).trans h.config

theorem removeFromOpenProposals_writes (h : Writes id pid q s t) :
    wp (removeFromOpenProposals id pid) (fun _ u => Writes id pid q s u) e t := by
  simp only [wp_removeFromOpenProposals]
  exact ⟨fun _ _ => h.put (by simp) (by simp), fun _ => h⟩

theorem execMultisig_revision (h : ProposalsCounted s m.vault) :
    wp (execMultisig m) (fun _ t => Revision e s t m) e s := by
  cases m with
  | configureMultisig id a signers threshold =>
      simp only [execMultisig, configureMultisig, Tx.wp_bind, wp_loadLockedByOwner, wp_u32,
        wp_require, wp_storageSet]
      intro _ v hv _ hlocked _ _ _
      exact .configured v hv hlocked (fun _ => State.get_put_of_ne (by simp)) State.get_put_self
  | removeMultisig id a =>
      simp only [execMultisig, removeMultisig, Tx.wp_bind, wp_requireAuth, wp_loadVault, wp_require,
        wp_storageRemove]
      intro _ v hv _
      exact .removed v hv (fun _ => State.get_erase_of_ne (by simp)) State.get_erase_self
  | removeMultisigSigner id a signer =>
      have hconfig : wp (removeMultisigSigner id a signer) (fun _ t => ∃ v config,
          s.vault id = some v ∧ s.get (.multiSigConfig id) = some config ∧
          t.get (.multiSigConfig id) = some (config.without signer)) e s := by
        simp only [removeMultisigSigner, Tx.wp_bind, wp_requireAuth, wp_loadVault, wp_require,
          wp_storageGet, Tx.wp_fromSome, wp_storageSet]
        intro _ v hv _ config hconfig _
        refine Tx.wp_mono (Tx.wp_forEach_foldl fun _ _ => rejectIfShort_spec) ?_
        rintro _ t ⟨rfl, -⟩
        refine ⟨v, config, hv, hconfig, ?_⟩
        rw [get_foldl_rejectShort_of_ne (by simp), State.get_put_self]
      refine Tx.wp_mono (Tx.wp_and hconfig (removeMultisigSigner_get h)) ?_
      rintro _ t ⟨⟨v, config, hv, hconfig, hnew⟩, config', hconfig', hget, -⟩
      obtain rfl := Option.some.inj (hconfig.symm.trans hconfig')
      exact .reduced v config hv hconfig hget hnew
  | proposeMultisig id a op payload address =>
      simp only [execMultisig, proposeMultisig, Tx.wp_bind, wp_loadLockedByOwner, wp_storageGet,
        Tx.wp_fromSome, wp_u64, wp_timestamp, Tx.wp_pure, wp_storageSet]
      intro _ v hv _ hlocked config hconfig _ _
      have hbound := h
      unfold ProposalsCounted at hbound
      simp only [MultisigCall.vault] at hbound
      generalize (s.get (.multiSigProposalCount id)).getD 0 = n at hbound ⊢
      have hnone : s.get (.multiSigProposal id (n + 1)) = none := by
        cases hp : s.get (.multiSigProposal id (n + 1)) with
        | none => rfl
        | some p => exact absurd (hbound _ p hp).2 (Nat.not_succ_le_self n)
      refine .proposed v config _ hv hlocked hconfig hnone rfl rfl ?_
        ((writes_put.put (by simp) (by simp)).put (by simp) (by simp))
      exact Nat.le_add_right _ _
  | approveMultisig id pid a =>
      simp only [execMultisig, approveMultisig, loadConfigBySigner, Tx.wp_bind, wp_requireAuth,
        wp_loadVault, wp_require, wp_storageGet, Tx.wp_fromSome, wp_loadProposal, wp_timestamp,
        Tx.wp_pure, wp_storageSet]
      intro _ config hconfig v hv _ p hp hpending hexpires hnew
      exact .approved v config p hv hconfig hp hpending hexpires hnew writes_put
  | rejectMultisig id pid a =>
      simp only [execMultisig, rejectMultisig, Tx.wp_bind, wp_requireAuth, wp_loadVault,
        wp_require, wp_loadProposal, wp_storageSet]
      intro _ v hv _ p hp hpending
      exact Tx.wp_mono (removeFromOpenProposals_writes writes_put) fun _ _ hw =>
        .rejected v p hv hp hpending hw
  | vetoProposal id pid a =>
      simp only [execMultisig, vetoProposal, loadConfigBySigner, Tx.wp_bind, wp_requireAuth,
        wp_loadVault, wp_require, wp_storageGet, Tx.wp_fromSome, wp_loadProposal, Tx.wp_pure,
        wp_storageSet]
      intro _ config _ v hv _ p hp _
      exact .vetoed v p hv hp writes_put
  | executeMultisig id pid a =>
      refine Tx.wp_mono executeMultisig_spec ?_
      rintro _ t ⟨v, p, hdone⟩
      refine .executed v p hdone.vault hdone.proposal hdone.approved hdone.unexpired ⟨?_, ?_⟩
      · intro i
        rcases eq_or_ne i pid with rfl | hi
        · rw [if_pos rfl]
          exact hdone.executed
        · rw [if_neg hi]
          exact hdone.others _ rfl (by simpa using hi) (by simp)
      · exact hdone.others _ rfl (by simp) (by simp)

/-! ## One proposal -/

/-- One step in the life of a proposal: it is rejected or approved while it is pending, vetoed at
any time before its execution, and executed when it is marked approved. -/
inductive MultiSigProposal.Moves (p : MultiSigProposal) : MultiSigProposal → Prop
  | stays : p.Moves p
  | approved (a : Address) (threshold : Nat) : p.status = .pending → a ∉ p.approvals →
      p.Moves (p.approvedBy a threshold)
  | rejected : p.status = .pending → p.Moves { p with status := .rejected }
  | vetoed : p.Moves { p with status := .vetoed }
  | executed : p.status = .approved → p.Moves { p with status := .executed }

namespace MultiSigProposal.Moves

theorem finished (h : p.Moves q) (hover : p.Over) : q.Over := by
  cases h with
  | stays => exact hover
  | approved _ _ hpending _ | rejected hpending => simp [Over, hpending] at hover
  | vetoed => exact .inr (.inl rfl)
  | executed _ => exact .inr (.inr rfl)

theorem nodup (h : p.Moves q) (hp : p.approvals.Nodup) : q.approvals.Nodup := by
  cases h with
  | approved a _ _ hnew => exact hp.append (List.nodup_singleton a) (by simpa using hnew)
  | _ => exact hp

theorem known (h : p.Moves q) (hp : p.status ≠ .expired) : q.status ≠ .expired := by
  cases h with
  | stays => exact hp
  | approved =>
      show (if _ then _ else _) ≠ ProposalStatus.expired
      split
      · exact ProposalStatus.noConfusion
      · exact hp
  | _ => exact ProposalStatus.noConfusion

end MultiSigProposal.Moves

theorem moves_rejectShort {threshold : Nat} {signer : Address} :
    p.Moves (p.rejectShort threshold signer) := by
  unfold MultiSigProposal.rejectShort
  split
  · next hshort => exact .rejected hshort.1
  · exact .stays

theorem rejectShort_expiresAt {threshold : Nat} {signer : Address} :
    (p.rejectShort threshold signer).expiresAt = p.expiresAt := by
  unfold MultiSigProposal.rejectShort
  split <;> rfl

/-- What becomes of a proposal, when one is written that comes from the stored one. -/
theorem Writes.next {i : Nat} (h : Writes id pid q s t)
    (hmoves : ∀ p, s.get (.multiSigProposal id pid) = some p → p.Moves q)
    (hp : s.get (.multiSigProposal id i) = some p) :
    ∃ q, t.get (.multiSigProposal id i) = some q ∧ p.Moves q := by
  rw [h.proposals]
  rcases eq_or_ne i pid with rfl | hi
  · exact ⟨q, if_pos rfl, hmoves p hp⟩
  · exact ⟨p, by rw [if_neg hi, hp], .stays⟩

theorem Revision.vault (h : Revision e s t m) : ∃ v, s.vault m.vault = some v := by
  cases h with
  | configured v hv | removed v hv | reduced v _ hv | proposed v _ _ hv | approved v _ _ hv
  | rejected v _ hv | vetoed v _ hv | executed v _ hv => exact ⟨v, hv⟩

/-- Every proposal of the vault moves by one step. -/
theorem Revision.next {i : Nat} (h : Revision e s t m)
    (hp : s.get (.multiSigProposal m.vault i) = some p) :
    ∃ q, t.get (.multiSigProposal m.vault i) = some q ∧ p.Moves q := by
  cases h with
  | configured _ _ _ hsame _ | removed _ _ hsame _ => exact ⟨p, (hsame i).trans hp, .stays⟩
  | reduced _ config _ _ hmap _ =>
      exact ⟨_, (hmap i).trans (congrArg (Option.map _) hp), moves_rejectShort⟩
  | proposed _ _ _ _ _ _ hnone _ _ _ hwrites =>
      exact hwrites.next (fun p' hp' => by cases hnone.symm.trans hp') hp
  | approved _ _ p' _ _ hp' hpending _ hnew hwrites =>
      refine hwrites.next (fun r hr => ?_) hp
      obtain rfl := Option.some.inj (hp'.symm.trans hr)
      exact .approved _ _ hpending hnew
  | rejected _ p' _ hp' hpending hwrites =>
      refine hwrites.next (fun r hr => ?_) hp
      obtain rfl := Option.some.inj (hp'.symm.trans hr)
      exact .rejected hpending
  | vetoed _ p' _ hp' hwrites =>
      refine hwrites.next (fun r hr => ?_) hp
      obtain rfl := Option.some.inj (hp'.symm.trans hr)
      exact .vetoed
  | executed _ p' _ hp' happroved _ hwrites =>
      refine hwrites.next (fun r hr => ?_) hp
      obtain rfl := Option.some.inj (hp'.symm.trans hr)
      exact .executed happroved

/-- A new proposal is pending and has the approval of the owner. -/
theorem Revision.fresh {i : Nat} (h : Revision e s t m)
    (hnone : s.get (.multiSigProposal m.vault i) = none)
    (hq : t.get (.multiSigProposal m.vault i) = some q) :
    (∃ v, s.vault m.vault = some v) ∧ q.status = .pending ∧ ∃ a, q.approvals = [a] := by
  have hold : ∀ {id pid p r}, id = m.vault → Writes id pid r s t →
      s.get (.multiSigProposal id pid) = some p → False := by
    rintro _ pid p r rfl hwrites hp
    rw [hwrites.proposals] at hq
    split at hq
    · next heq => cases hp.symm.trans (heq ▸ hnone)
    · cases hnone.symm.trans hq
  cases h with
  | configured _ _ _ hsame _ | removed _ _ hsame _ =>
      cases hnone.symm.trans ((hsame i).symm.trans hq)
  | reduced _ config _ _ hmap _ =>
      obtain ⟨p, hp, -⟩ := Option.map_eq_some_iff.mp ((hmap i).symm.trans hq)
      cases hnone.symm.trans hp
  | proposed v config q' hv _ _ _ happrovals hpending _ hwrites =>
      have hq' := hq.symm.trans (hwrites.proposals i)
      split at hq'
      · obtain rfl := Option.some.inj hq'
        exact ⟨⟨v, hv⟩, hpending, _, happrovals⟩
      · cases hnone.symm.trans hq'.symm
  | approved _ _ p _ _ hp _ _ _ hwrites => exact (hold rfl hwrites hp).elim
  | rejected _ p _ hp _ hwrites => exact (hold rfl hwrites hp).elim
  | vetoed _ p _ hp hwrites => exact (hold rfl hwrites hp).elim
  | executed _ p _ hp _ _ hwrites => exact (hold rfl hwrites hp).elim

/-- A call about the proposals of another vault, or about none, leaves those of vault `id` and
their configuration alone. -/
theorem exec_elsewhere (hnum : s.Numbered) (hexec : exec c e s = .ok ((), t))
    (hc : ∀ m, c = .multisig m → m.vault ≠ id) :
    (∀ i, t.get (.multiSigProposal id i) = s.get (.multiSigProposal id i)) ∧
      t.get (.multiSigConfig id) = s.get (.multiSigConfig id) := by
  have hframe := exec_frame c hnum _ _ hexec
  have hkeys : ∀ k : DataKey, k.area = .multisig → k.vaultId? = some id → t.get k = s.get k := by
    intro k harea hid
    by_cases hm : .multisig ∈ (c.footprint s).areas
    · obtain ⟨m, rfl⟩ := Call.multisig_writer hm
      refine hframe.get_of_vault hid ?_
      rw [Call.footprint, MultisigCall.vaults_footprint, List.mem_singleton]
      exact (hc m rfl).symm
    · exact hframe.get_of_area (by simpa [harea] using hm)
  exact ⟨fun i => hkeys _ rfl rfl, hkeys _ rfl rfl⟩

theorem exec_revision (h : s.ProposalsSound) (hexec : exec (.multisig m) e s = .ok ((), t)) :
    Revision e s t m :=
  execMultisig_revision (h.counted _) _ _ hexec

/-- Every proposal moves by one step. -/
theorem exec_next (hnum : s.Numbered) (h : s.ProposalsSound) (hexec : exec c e s = .ok ((), t))
    (hp : s.get (.multiSigProposal id pid) = some p) :
    ∃ q, t.get (.multiSigProposal id pid) = some q ∧ p.Moves q := by
  by_cases hc : ∃ m, c = .multisig m ∧ m.vault = id
  · obtain ⟨m, rfl, rfl⟩ := hc
    exact (exec_revision h hexec).next hp
  · refine ⟨p, ?_, .stays⟩
    rw [(exec_elsewhere hnum hexec fun m hm hid => hc ⟨m, hm, hid⟩).1, hp]

theorem exec_moves (hnum : s.Numbered) (h : s.ProposalsSound) (hexec : exec c e s = .ok ((), t))
    (hq : t.get (.multiSigProposal id pid) = some q) :
    (∃ p, s.get (.multiSigProposal id pid) = some p ∧ p.Moves q) ∨
      (∃ v, s.vault id = some v) ∧ q.status = .pending ∧ ∃ a, q.approvals = [a] := by
  cases hp : s.get (.multiSigProposal id pid) with
  | some p =>
      obtain ⟨q', hq', hmoves⟩ := exec_next hnum h hexec hp
      obtain rfl := Option.some.inj (hq'.symm.trans hq)
      exact .inl ⟨p, rfl, hmoves⟩
  | none =>
      by_cases hc : ∃ m, c = .multisig m ∧ m.vault = id
      · obtain ⟨m, rfl, rfl⟩ := hc
        exact .inr ((exec_revision h hexec).fresh hp hq)
      · rw [(exec_elsewhere hnum hexec fun m hm hid => hc ⟨m, hm, hid⟩).1, hp] at hq
        cases hq

theorem exec_proposalsSound (hnum : s.Numbered) (h : s.ProposalsSound) :
    wp (exec c) (fun _ t => t.ProposalsSound) e s := by
  intro _ t hexec
  refine ⟨fun id => (exec_proposals hnum (h.counted id) _ _ hexec).2, ?_, ?_, ?_⟩
  · intro id pid q hq
    have hv : ∃ v, s.vault id = some v := by
      rcases exec_moves hnum h hexec hq with ⟨p, hp, -⟩ | ⟨hv, -⟩
      · exact h.placed id pid p hp
      · exact hv
    obtain ⟨v, hv⟩ := hv
    obtain ⟨w, hw, -⟩ := (exec_frame c hnum _ _ hexec).kept id v hv
    exact ⟨w, hw⟩
  · intro id pid q hq
    rcases exec_moves hnum h hexec hq with ⟨p, hp, hmoves⟩ | ⟨-, -, a, ha⟩
    · exact hmoves.nodup (h.nodup id pid p hp)
    · exact ha ▸ List.nodup_singleton a
  · intro id pid q hq
    rcases exec_moves hnum h hexec hq with ⟨p, hp, hmoves⟩ | ⟨-, hpending, -⟩
    · exact hmoves.known (h.known id pid p hp)
    · rw [hpending]
      exact ProposalStatus.noConfusion

theorem Step.proposalsSound {w w' : World} {k : Event} (hstep : Step w k w')
    (hnum : w.state.Numbered) (h : w.state.ProposalsSound) : w'.state.ProposalsSound := by
  cases hstep with
  | tokens _ _ => exact ⟨h.counted, h.placed, h.nodup, h.known⟩
  | call _ hexec => exact exec_proposalsSound hnum h _ _ hexec

theorem proposalsSound_of_genesis {w : World} (h : Genesis w) : w.state.ProposalsSound := by
  have hnone : ∀ id pid, w.state.get (.multiSigProposal id pid) = none :=
    fun id pid => h.get (by simp)
  exact ⟨fun _ => counted_of_genesis h, fun _ _ _ hp => (by simp [hnone] at hp),
    fun _ _ _ hp => (by simp [hnone] at hp), fun _ _ _ hp => (by simp [hnone] at hp)⟩

/-- A finished proposal stays finished. -/
theorem Step.closed {w w' : World} {k : Event} (hstep : Step w k w') (hnum : w.state.Numbered)
    (h : w.state.ProposalsSound) (hclosed : w.state.Closed id pid) : w'.state.Closed id pid := by
  cases hstep with
  | tokens _ _ => exact hclosed
  | call _ hexec =>
      obtain ⟨p, hp, hover⟩ := hclosed
      obtain ⟨q, hq, hmoves⟩ := exec_next hnum h hexec hp
      exact ⟨q, hq, hmoves.finished hover⟩

/-- A proposal that is executed was marked approved and is finished from then on. -/
theorem Step.executes_once {w w' : World} {k : Event} (hstep : Step w k w')
    (h : w.state.ProposalsSound) (hk : k.executes id pid = true) :
    (∃ v p, w.state.vault id = some v ∧ w.state.get (.multiSigProposal id pid) = some p ∧
      p.status = .approved ∧ w'.clock ≤ p.expiresAt) ∧ w'.state.Closed id pid := by
  unfold Event.executes at hk
  split at hk
  · next e i j a =>
      obtain ⟨rfl, rfl⟩ := of_decide_eq_true hk
      cases hstep with
      | call _ hexec =>
          cases exec_revision h hexec with
          | executed v p hv hp happroved hexpires hwrites =>
              exact ⟨⟨v, p, hv, hp, happroved, hexpires⟩, _,
                (hwrites.proposals j).trans (if_pos rfl), .inr (.inr rfl)⟩
  · cases hk

/-! ## The mark after a call -/

theorem MultiSigProposal.Live.mono {before : Nat} (h : p.Live now) (hle : before ≤ now) :
    p.Live before :=
  ⟨hle.trans h.unexpired, h.unfinished⟩

theorem State.ReadyAt.later {before : Nat} (h : s.ReadyAt before id) (hle : before ≤ now) :
    s.ReadyAt now id :=
  fun pid v p hv hp hlive => h pid v p hv hp (hlive.mono hle)

theorem live_of_pending (hpending : p.status = .pending) (hexpires : now ≤ p.expiresAt) :
    p.Live now := by
  refine ⟨hexpires, ?_⟩
  rintro (h | h | h) <;> cases hpending.symm.trans h

theorem live_of_approved (happroved : p.status = .approved) (hexpires : now ≤ p.expiresAt) :
    p.Live now := by
  refine ⟨hexpires, ?_⟩
  rintro (h | h | h) <;> cases happroved.symm.trans h

theorem reachesThreshold_iff {config : MultiSigConfig}
    (hconfig : s.get (.multiSigConfig id) = some config) (hp : p.approvals.Nodup) :
    s.ReachesThreshold id p ↔ config.threshold ≤ p.approvals.length := by
  unfold State.ReachesThreshold
  rw [hp.dedup]
  constructor
  · rintro ⟨config', hconfig', hreaches⟩
    obtain rfl := Option.some.inj (hconfig.symm.trans hconfig')
    exact hreaches
  · exact fun hreaches => ⟨config, hconfig, hreaches⟩

theorem reachesThreshold_congr
    (h : t.get (.multiSigConfig id) = s.get (.multiSigConfig id)) :
    t.ReachesThreshold id p ↔ s.ReachesThreshold id p := by
  unfold State.ReachesThreshold
  rw [h]

/-- Where one proposal is written and the vault keeps its status, the marks are right if and only
if that of the written proposal is. -/
theorem Writes.readyAt_iff {w : Vault} (h : Writes id pid q s t) (hs : s.ReadyAt now id)
    (hv : s.vault id = some v) (hw : t.vault id = some w) (hstatus : w.status = v.status) :
    t.ReadyAt now id ↔
      (q.Live now → (q.status = .approved ↔ v.status = .locked ∧ s.ReachesThreshold id q)) := by
  unfold State.ReadyAt
  simp only [reachesThreshold_congr h.config, h.proposals]
  constructor
  · intro ht hlive
    rw [← hstatus]
    exact ht pid w q hw (if_pos rfl) hlive
  · intro hq i w' p hw' hp hlive
    obtain rfl := Option.some.inj (hw.symm.trans hw')
    rw [hstatus]
    split at hp
    · obtain rfl := Option.some.inj hp
      exact hq hlive
    · exact hs i v p hv hp hlive

/-- Where no proposal is written and the vault keeps its configuration, the marks stay right if
and only if a vault that leaves its locked status has no approved proposal. -/
theorem readyAt_iff_of_same {w : Vault}
    (hsame : ∀ i, t.get (.multiSigProposal id i) = s.get (.multiSigProposal id i))
    (hconfig : t.get (.multiSigConfig id) = s.get (.multiSigConfig id)) (hs : s.ReadyAt now id)
    (hv : s.vault id = some v) (hw : t.vault id = some w)
    (hstatus : w.status = v.status ∨ w.status ≠ .locked) :
    t.ReadyAt now id ↔ (v.status = .locked → w.status ≠ .locked →
      ∀ pid p, s.get (.multiSigProposal id pid) = some p → p.Live now → p.status ≠ .approved) := by
  unfold State.ReadyAt
  simp only [reachesThreshold_congr hconfig, hsame]
  constructor
  · intro ht _ hleft i p hp hlive happroved
    exact hleft ((ht i w p hw hp hlive).mp happroved).1
  · intro hspares i w' p hw' hp hlive
    obtain rfl := Option.some.inj (hw.symm.trans hw')
    have hready := hs i v p hv hp hlive
    rcases hstatus with hstatus | hleft
    · rw [hstatus]
      exact hready
    · refine iff_of_false (fun happroved => ?_) fun h => hleft h.1
      exact hspares (hready.mp happroved).1 hleft i p hp hlive happroved

/-- Where the proposal that is written is finished, the marks stay right if and only if a vault
that leaves its locked status has no other approved proposal. -/
theorem Writes.readyAt_iff_of_over {w : Vault} (h : Writes id pid q s t) (hover : q.Over)
    (hs : s.ReadyAt now id) (hv : s.vault id = some v) (hw : t.vault id = some w)
    (hstatus : w.status = v.status ∨ w.status ≠ .locked) :
    t.ReadyAt now id ↔ (v.status = .locked → w.status ≠ .locked → ∀ i p,
      s.get (.multiSigProposal id i) = some p → p.Live now → p.status = .approved → i = pid) := by
  unfold State.ReadyAt
  simp only [reachesThreshold_congr h.config, h.proposals]
  constructor
  · intro ht _ hleft i p hp hlive happroved
    by_contra hi
    exact hleft ((ht i w p hw (by rw [if_neg hi, hp]) hlive).mp happroved).1
  · intro hspares i w' p hw' hp hlive
    obtain rfl := Option.some.inj (hw.symm.trans hw')
    split at hp
    · obtain rfl := Option.some.inj hp
      exact absurd hover hlive.unfinished
    · next hi =>
        have hready := hs i v p hv hp hlive
        rcases hstatus with hstatus | hleft
        · rw [hstatus]
          exact hready
        · refine iff_of_false (fun happroved => hi ?_) fun h => hleft h.1
          exact hspares (hready.mp happroved).1 hleft i p hp hlive happroved

/-- The mark of a proposal after the removal of a signer. -/
theorem rejectShort_ready_iff {config : MultiSigConfig} {signer : Address}
    (hknown : p.status ≠ .expired) (hlive : p.Live now)
    (hready : p.status = .approved ↔
      v.status = .locked ∧ config.threshold ≤ p.approvals.length)
    (hq : p.rejectShort (config.without signer).threshold signer = q) :
    (q.Live now → (q.status = .approved ↔
      v.status = .locked ∧ (config.without signer).threshold ≤ q.approvals.length)) ↔
    (v.status = .locked → p.status = .pending →
      p.approvalsWithout signer < (config.without signer).threshold) := by
  have hlower : (config.without signer).threshold ≤ config.threshold := Nat.min_le_left _ _
  have hfewer : p.approvalsWithout signer ≤ p.approvals.length := List.length_filter_le _ _
  subst hq
  unfold MultiSigProposal.rejectShort
  split
  · next hshort =>
      exact iff_of_true (fun hlive' => absurd (.inl rfl) hlive'.unfinished) fun _ _ => hshort.2
  · next hshort =>
      constructor
      · intro hq hlocked hpending
        by_contra hless
        have happroved := (hq hlive).mpr ⟨hlocked, (Nat.le_of_not_lt hless).trans hfewer⟩
        cases hpending.symm.trans happroved
      · intro hpending _
        constructor
        · intro happroved
          obtain ⟨hlocked, hreaches⟩ := hready.mp happroved
          exact ⟨hlocked, hlower.trans hreaches⟩
        · rintro ⟨hlocked, -⟩
          -- a live proposal that is not marked approved is pending
          cases hstatus : p.status with
          | approved => rfl
          | pending => exact absurd ⟨hstatus, hpending hlocked hstatus⟩ hshort
          | expired => exact absurd hstatus hknown
          | rejected => exact absurd (.inl hstatus) hlive.unfinished
          | vetoed => exact absurd (.inr (.inl hstatus)) hlive.unfinished
          | executed => exact absurd (.inr (.inr hstatus)) hlive.unfinished

/-! What each call has to meet, when the vault keeps its status. -/

section Calls

variable {w : Vault} {config : MultiSigConfig} {signers : List Address} {threshold : Nat}
  {a signer : Address}

theorem configured_readyAt_iff (hsound : s.ProposalsSound) (hlocked : v.status = .locked)
    (hsame : ∀ i, t.get (.multiSigProposal id i) = s.get (.multiSigProposal id i))
    (hconfig : t.get (.multiSigConfig id) = some ⟨signers, threshold⟩)
    (hw : t.vault id = some w) (hstatus : w.status = v.status) :
    t.ReadyAt now id ↔ ∀ i p, s.get (.multiSigProposal id i) = some p → p.Live now →
      (p.status = .approved ↔ threshold ≤ p.approvals.length) := by
  constructor
  · intro ht i p hp hlive
    have hready := ht i w p hw ((hsame i).trans hp) hlive
    rw [reachesThreshold_iff hconfig (hsound.nodup _ _ _ hp), hstatus] at hready
    exact hready.trans (and_iff_right hlocked)
  · intro hmarks i w' p hw' hp hlive
    obtain rfl := Option.some.inj (hw.symm.trans hw')
    rw [hsame] at hp
    rw [reachesThreshold_iff hconfig (hsound.nodup _ _ _ hp), hstatus, and_iff_right hlocked]
    exact hmarks i p hp hlive

theorem removed_readyAt_iff
    (hsame : ∀ i, t.get (.multiSigProposal id i) = s.get (.multiSigProposal id i))
    (hconfig : t.get (.multiSigConfig id) = none) (hv : s.vault id = some v)
    (hw : t.vault id = some w) :
    t.ReadyAt now id ↔ ∀ v i p, s.vault id = some v → s.get (.multiSigProposal id i) = some p →
      p.Live now → p.status ≠ .approved := by
  have hnever : ∀ p, ¬ t.ReachesThreshold id p := by
    rintro p ⟨config, hsome, -⟩
    cases hconfig.symm.trans hsome
  constructor
  · intro ht _ i p _ hp hlive happroved
    exact hnever p ((ht i w p hw ((hsame i).trans hp) hlive).mp happroved).2
  · intro hmarks i w' p hw' hp hlive
    rw [hsame] at hp
    exact iff_of_false (hmarks v i p hv hp hlive) fun h => hnever p h.2

theorem reduced_readyAt_iff (hsound : s.ProposalsSound) (hs : s.ReadyAt now id)
    (hconfig : s.get (.multiSigConfig id) = some config)
    (hmap : ∀ i, t.get (.multiSigProposal id i) = (s.get (.multiSigProposal id i)).map
      (·.rejectShort (config.without signer).threshold signer))
    (hnew : t.get (.multiSigConfig id) = some (config.without signer))
    (hv : s.vault id = some v) (hw : t.vault id = some w) (hstatus : w.status = v.status) :
    t.ReadyAt now id ↔ ∀ v config i p, s.vault id = some v → v.status = .locked →
      s.get (.multiSigConfig id) = some config → s.get (.multiSigProposal id i) = some p →
      p.Live now → p.status = .pending →
      p.approvalsWithout signer < (config.without signer).threshold := by
  -- the condition of the call is the one of each of its proposals
  have hiff : ∀ i p, s.get (.multiSigProposal id i) = some p → p.Live now →
      (((p.rejectShort (config.without signer).threshold signer).Live now →
        ((p.rejectShort (config.without signer).threshold signer).status = .approved ↔
          w.status = .locked ∧ t.ReachesThreshold id
            (p.rejectShort (config.without signer).threshold signer))) ↔
      (v.status = .locked → p.status = .pending →
        p.approvalsWithout signer < (config.without signer).threshold)) := by
    intro i p hp hlive
    have hready := hs i v p hv hp hlive
    rw [reachesThreshold_iff hconfig (hsound.nodup _ _ _ hp)] at hready
    rw [reachesThreshold_iff hnew (moves_rejectShort.nodup (hsound.nodup _ _ _ hp)), hstatus]
    exact rejectShort_ready_iff (hsound.known _ _ _ hp) hlive hready rfl
  constructor
  · intro ht v' config' i p hv' hlocked hconfig' hp hlive hpending
    obtain rfl := Option.some.inj (hv.symm.trans hv')
    obtain rfl := Option.some.inj (hconfig.symm.trans hconfig')
    refine (hiff i p hp hlive).mp (fun hlive' => ?_) hlocked hpending
    exact ht i w _ hw ((hmap i).trans (congrArg (Option.map _) hp)) hlive'
  · intro hmarks i w' q hw' hq hlive'
    obtain rfl := Option.some.inj (hw.symm.trans hw')
    obtain ⟨p, hp, rfl⟩ := Option.map_eq_some_iff.mp ((hmap i).symm.trans hq)
    have hlive : p.Live now :=
      ⟨rejectShort_expiresAt ▸ hlive'.unexpired,
        fun hover => hlive'.unfinished (moves_rejectShort.finished hover)⟩
    exact (hiff i p hp hlive).mpr (fun hlocked hpending =>
      hmarks v config i p hv hlocked hconfig hp hlive hpending) hlive'

theorem proposed_readyAt_iff (hs : s.ReadyAt now id) (hv : s.vault id = some v)
    (hlocked : v.status = .locked) (hconfig : s.get (.multiSigConfig id) = some config)
    (happrovals : q.approvals = [a]) (hpending : q.status = .pending) (hexpires : now ≤ q.expiresAt)
    (hwrites : Writes id pid q s t) (hw : t.vault id = some w) (hstatus : w.status = v.status) :
    t.ReadyAt now id ↔
      ∀ config, s.get (.multiSigConfig id) = some config → 1 < config.threshold := by
  rw [hwrites.readyAt_iff hs hv hw hstatus,
    reachesThreshold_iff hconfig (happrovals ▸ List.nodup_singleton a), happrovals]
  have hno : q.status ≠ .approved := by simp [hpending]
  constructor
  · intro hq config' hconfig'
    obtain rfl := Option.some.inj (hconfig.symm.trans hconfig')
    by_contra hless
    exact hno ((hq (live_of_pending hpending hexpires)).mpr ⟨hlocked, Nat.le_of_not_lt hless⟩)
  · exact fun hmarks _ => iff_of_false hno fun h => absurd (hmarks config hconfig) h.2.not_gt

theorem approved_readyAt_iff (hsound : s.ProposalsSound) (hs : s.ReadyAt now id)
    (hv : s.vault id = some v) (hconfig : s.get (.multiSigConfig id) = some config)
    (hp : s.get (.multiSigProposal id pid) = some p) (hpending : p.status = .pending)
    (hexpires : now ≤ p.expiresAt) (hnew : a ∉ p.approvals)
    (hwrites : Writes id pid (p.approvedBy a config.threshold) s t) (hw : t.vault id = some w)
    (hstatus : w.status = v.status) :
    t.ReadyAt now id ↔ ∀ v config p, s.vault id = some v → v.status ≠ .locked →
      s.get (.multiSigConfig id) = some config → s.get (.multiSigProposal id pid) = some p →
      p.approvals.length + 1 < config.threshold := by
  have hmoves : p.Moves (p.approvedBy a config.threshold) := .approved a _ hpending hnew
  have hlength : (p.approvedBy a config.threshold).approvals.length = p.approvals.length + 1 :=
    List.length_append
  have hmark : (p.approvedBy a config.threshold).status =
      if config.threshold ≤ p.approvals.length + 1 then .approved else p.status := by
    rw [← hlength]
    rfl
  have hlive : (p.approvedBy a config.threshold).Live now := by
    refine ⟨hexpires, ?_⟩
    unfold MultiSigProposal.Over
    rw [hmark]
    split <;> simp [hpending]
  rw [hwrites.readyAt_iff hs hv hw hstatus,
    reachesThreshold_iff hconfig (hmoves.nodup (hsound.nodup _ _ _ hp)), hlength, hmark]
  constructor
  · intro hq v' config' p' hv' hleft hconfig' hp'
    obtain rfl := Option.some.inj (hv.symm.trans hv')
    obtain rfl := Option.some.inj (hconfig.symm.trans hconfig')
    obtain rfl := Option.some.inj (hp.symm.trans hp')
    by_contra hless
    exact hleft ((hq hlive).mp (if_pos (Nat.le_of_not_lt hless))).1
  · intro hmarks _
    split
    · next hreaches =>
        refine iff_of_true rfl ⟨?_, hreaches⟩
        by_contra hleft
        exact absurd hreaches (hmarks v config p hv hleft hconfig hp).not_ge
    · next hshort => exact iff_of_false (by simp [hpending]) fun h => hshort h.2

/-- A call about proposals other than an execution keeps the marks right if and only if it meets
its condition. -/
theorem Revision.readyAt_iff (h : Revision e s t m) (hsound : s.ProposalsSound)
    (hs : s.ReadyAt e.timestamp m.vault) (hv : s.vault m.vault = some v)
    (hw : t.vault m.vault = some w) (hstatus : w.status = v.status)
    (hm : ∀ id pid a, m ≠ .executeMultisig id pid a) :
    t.ReadyAt e.timestamp m.vault ↔ KeepsMarks s e (.multisig m) := by
  have hsame : ∀ {v'}, s.vault m.vault = some v' → w.status = v'.status := by
    intro v' hv'
    obtain rfl := Option.some.inj (hv.symm.trans hv')
    exact hstatus
  cases h with
  | configured v' hv' hlocked hkeep hconfig =>
      exact configured_readyAt_iff hsound hlocked hkeep hconfig hw (hsame hv')
  | removed v' hv' hkeep hconfig => exact removed_readyAt_iff hkeep hconfig hv' hw
  | reduced v' config hv' hconfig hmap hnew =>
      exact reduced_readyAt_iff hsound hs hconfig hmap hnew hv' hw (hsame hv')
  | proposed v' config q hv' hlocked hconfig _ happrovals hpending hexpires hwrites =>
      exact proposed_readyAt_iff hs hv' hlocked hconfig happrovals hpending hexpires hwrites hw
        (hsame hv')
  | approved v' config p hv' hconfig hp hpending hexpires hnew hwrites =>
      exact approved_readyAt_iff hsound hs hv' hconfig hp hpending hexpires hnew hwrites hw
        (hsame hv')
  | rejected v' p hv' hp hpending hwrites =>
      exact iff_of_true ((hwrites.readyAt_iff hs hv' hw (hsame hv')).mpr
        fun hlive => absurd (.inl rfl) hlive.unfinished) trivial
  | vetoed v' p hv' hp hwrites =>
      exact iff_of_true ((hwrites.readyAt_iff hs hv' hw (hsame hv')).mpr
        fun hlive => absurd (.inr (.inl rfl)) hlive.unfinished) trivial
  | executed => exact absurd rfl (hm _ _ _)

end Calls

/-- The status of a vault changes with a call only as its frame allows. -/
theorem exec_status (hnum : s.Numbered) (hexec : exec c e s = .ok ((), t))
    (hv : s.vault id = some v) :
    ∃ w, t.vault id = some w ∧ (w.status = v.status ∨ w.status ≠ .locked) := by
  obtain ⟨w, hw, hagree⟩ := (exec_frame c hnum _ _ hexec).kept id v hv
  exact ⟨w, hw, hagree.status.imp_right And.right⟩

/-- The call leaves the marks of vault `id` right. This is the part of the condition that is about
one vault. -/
structure InStepAt (s t : State) (e : Env) (c : Call) (id : Nat) : Prop where
  marks : ∀ m, c = .multisig m → m.vault = id → KeepsMarks s e c
  spares : ∀ v v', s.vault id = some v → v.status = .locked → t.vault id = some v' →
    v'.status ≠ .locked → ∀ pid p, s.get (.multiSigProposal id pid) = some p →
      p.Live e.timestamp → p.status = .approved → ∃ a, c = .multisig (.executeMultisig id pid a)

theorem inStep_iff (hexec : exec c e s = .ok ((), t)) :
    InStep s e c ↔ ∀ id, InStepAt s t e c id := by
  constructor
  · intro h id
    exact ⟨fun _ _ _ => h.1, fun v v' hv hlocked hv' hleft =>
      h.2 t hexec id v v' hv hlocked hv' hleft⟩
  · intro h
    refine ⟨?_, fun t' hexec' id v v' hv hlocked hv' hleft => ?_⟩
    · by_cases hc : ∃ m, c = .multisig m
      · obtain ⟨m, rfl⟩ := hc
        exact (h m.vault).marks m rfl rfl
      · cases c with
        | multisig m => exact absurd ⟨m, rfl⟩ hc
        | _ => trivial
    · obtain ⟨-, rfl⟩ := Prod.mk.inj (Except.ok.inj (hexec.symm.trans hexec'))
      exact (h id).spares v v' hv hlocked hv' hleft

theorem multisig_status (hnum : s.Numbered) (hexec : exec (.multisig m) e s = .ok ((), t))
    (hm : ∀ id pid a, m ≠ .executeMultisig id pid a) (hv : s.vault id = some v) {w : Vault}
    (hw : t.vault id = some w) : w.status = v.status := by
  obtain ⟨w', hw', hagree⟩ := (exec_frame _ hnum _ _ hexec).kept id v hv
  obtain rfl := Option.some.inj (hw.symm.trans hw')
  refine hagree.status.resolve_right ?_
  rintro ⟨hpart, -⟩
  cases m with
  | executeMultisig => exact hm _ _ _ rfl
  | _ => exact absurd hpart List.not_mem_nil

/-- The vault the call about proposals is about. -/
theorem multisig_readyAt_iff {w : Vault} (hnum : s.Numbered) (hsound : s.ProposalsSound)
    (hs : s.ReadyAt e.timestamp m.vault) (hexec : exec (.multisig m) e s = .ok ((), t))
    (hv : s.vault m.vault = some v) (hw : t.vault m.vault = some w)
    (hstatus : w.status = v.status ∨ w.status ≠ .locked) :
    t.ReadyAt e.timestamp m.vault ↔ InStepAt s t e (.multisig m) m.vault := by
  have hrevision := exec_revision hsound hexec
  by_cases hm : ∃ id pid a, m = .executeMultisig id pid a
  · obtain ⟨id, pid, a, rfl⟩ := hm
    cases hrevision with
    | executed v' p hv' hp happroved hexpires hwrites =>
        refine (hwrites.readyAt_iff_of_over (.inr (.inr rfl)) hs hv hw hstatus).trans ⟨?_, ?_⟩
        · intro h
          refine ⟨fun m hm _ => by cases hm; trivial, ?_⟩
          intro v' w' hv' hlocked hw' hleft i p hp hlive happroved
          obtain rfl := Option.some.inj (hv.symm.trans hv')
          obtain rfl := Option.some.inj (hw.symm.trans hw')
          obtain rfl := h hlocked hleft i p hp hlive happroved
          exact ⟨a, rfl⟩
        · intro h hlocked hleft i p hp hlive happroved
          obtain ⟨a', heq⟩ := h.spares v w hv hlocked hw hleft i p hp hlive happroved
          cases heq
          rfl
  · have hother : ∀ id pid a, m ≠ .executeMultisig id pid a :=
      fun id pid a heq => hm ⟨id, pid, a, heq⟩
    have hkeeps := multisig_status hnum hexec hother hv hw
    refine (hrevision.readyAt_iff hsound hs hv hw hkeeps hother).trans ⟨?_, ?_⟩
    · intro h
      refine ⟨fun m hm _ => by cases hm; exact h, ?_⟩
      intro v' w' hv' hlocked hw' hleft
      obtain rfl := Option.some.inj (hv.symm.trans hv')
      obtain rfl := Option.some.inj (hw.symm.trans hw')
      exact absurd (hkeeps.trans hlocked) hleft
    · exact fun h => h.marks m rfl rfl

/-- The marks of a vault stay right at a call if and only if it meets the condition there. -/
theorem exec_readyAt_iff (hnum : s.Numbered) (hsound : s.ProposalsSound)
    (hs : s.ReadyAt e.timestamp id) (hexec : exec c e s = .ok ((), t)) :
    t.ReadyAt e.timestamp id ↔ InStepAt s t e c id := by
  cases hv : s.vault id with
  | none =>
      -- neither before nor after the call the vault has a proposal
      refine iff_of_true (fun pid _ q _ hq _ => ?_)
        ⟨fun m hm hid => ?_, fun v _ hv' => by cases hv.symm.trans hv'⟩
      · rcases exec_moves hnum hsound hexec hq with ⟨p, hp, -⟩ | ⟨⟨v, hv'⟩, -⟩
        · obtain ⟨v, hv'⟩ := hsound.placed id pid p hp
          cases hv.symm.trans hv'
        · cases hv.symm.trans hv'
      · subst hm hid
        obtain ⟨v, hv'⟩ := (exec_revision hsound hexec).vault
        cases hv.symm.trans hv'
  | some v =>
      obtain ⟨w, hw, hstatus⟩ := exec_status hnum hexec hv
      by_cases hc : ∃ m, c = .multisig m ∧ m.vault = id
      · obtain ⟨m, rfl, rfl⟩ := hc
        exact multisig_readyAt_iff hnum hsound hs hexec hv hw hstatus
      · have hother : ∀ m, c = .multisig m → m.vault ≠ id := fun m hm hid => hc ⟨m, hm, hid⟩
        obtain ⟨hsame, hconfig⟩ := exec_elsewhere hnum hexec hother
        rw [readyAt_iff_of_same hsame hconfig hs hv hw hstatus]
        constructor
        · intro h
          refine ⟨fun m hm hid => absurd hid (hother m hm), ?_⟩
          intro v' w' hv' hlocked hw' hleft i p hp hlive happroved
          obtain rfl := Option.some.inj (hv.symm.trans hv')
          obtain rfl := Option.some.inj (hw.symm.trans hw')
          exact absurd happroved (h hlocked hleft i p hp hlive)
        · intro h hlocked hleft i p hp hlive happroved
          obtain ⟨a, rfl⟩ := h.spares v w hv hlocked hw hleft i p hp hlive happroved
          exact hother _ rfl rfl

/-! ## Every run -/

variable {w w₀ u : World} {ks ls : List Event}

theorem Event.executes_execute {a : Address} :
    Event.executes id pid (.call e (.multisig (.executeMultisig id pid a))) = true :=
  decide_eq_true ⟨rfl, rfl⟩

/-- A finished proposal is not executed any more. -/
theorem executions_of_closed (hnum : w.state.Numbered) (h : w.state.ProposalsSound)
    (hclosed : w.state.Closed id pid) (hrun : Run Step w ls u) : executions id pid ls = 0 := by
  have hall : u.state.Numbered ∧ u.state.ProposalsSound ∧ u.state.Closed id pid ∧
      executions id pid ls = 0 := by
    refine hrun.invariantHistory (I := fun ls u => u.state.Numbered ∧ u.state.ProposalsSound ∧
      u.state.Closed id pid ∧ executions id pid ls = 0) ⟨hnum, h, hclosed, rfl⟩ ?_
    rintro ls u k u' ⟨hnum, h, hclosed, hnone⟩ hstep
    refine ⟨hstep.numbered hnum, hstep.proposalsSound hnum h, hstep.closed hnum h hclosed, ?_⟩
    have hk : ¬ k.executes id pid = true := by
      intro hk
      obtain ⟨⟨v, p, -, hp, happroved, -⟩, -⟩ := hstep.executes_once h hk
      obtain ⟨p', hp', hover⟩ := hclosed
      obtain rfl := Option.some.inj (hp.symm.trans hp')
      exact (live_of_approved happroved le_rfl).unfinished hover
    exact (List.countP_cons_of_neg hk).trans hnone
  exact hall.2.2.2

theorem executions_of_run (h₀ : Genesis w₀) (hrun : Run Step w₀ ks w) :
    executions id pid ks ≤ 1 := by
  have hall : w.state.Numbered ∧ w.state.ProposalsSound ∧ (executions id pid ks = 0 ∨
      executions id pid ks = 1 ∧ w.state.Closed id pid) := by
    refine hrun.invariantHistory (I := fun ks w => w.state.Numbered ∧ w.state.ProposalsSound ∧
      (executions id pid ks = 0 ∨ executions id pid ks = 1 ∧ w.state.Closed id pid))
      ⟨h₀.numbered, proposalsSound_of_genesis h₀, .inl rfl⟩ ?_
    rintro ks w k w' ⟨hnum, h, hcount⟩ hstep
    refine ⟨hstep.numbered hnum, hstep.proposalsSound hnum h, ?_⟩
    have hkeeps : w.state.Closed id pid → executions id pid (k :: ks) = executions id pid ks := by
      intro hclosed
      have hone : executions id pid [k] = 0 :=
        executions_of_closed hnum h hclosed (.next .start hstep)
      show List.countP _ ([k] ++ ks) = executions id pid ks
      rw [List.countP_append]
      exact (congrArg (· + executions id pid ks) hone).trans (Nat.zero_add _)
    rcases hcount with hzero | ⟨hone, hclosed⟩
    · by_cases hk : k.executes id pid = true
      · refine .inr ⟨?_, (hstep.executes_once h hk).2⟩
        exact (List.countP_cons_of_pos hk).trans (congrArg (· + 1) hzero)
      · exact .inl ((List.countP_cons_of_neg hk).trans hzero)
    · exact .inr ⟨(hkeeps hclosed).trans hone, hstep.closed hnum h hclosed⟩
  rcases hall.2.2 with h | ⟨h, -⟩
  · exact h ▸ Nat.zero_le 1
  · exact h.le

theorem readyAt_of_run (h₀ : Genesis w₀) (hrun : Run (Guarded Step (OnCalls InStep)) w₀ ks w) :
    w.state.ProposalsSound ∧ ∀ id, w.state.ReadyAt w.clock id := by
  refine history_of_calls
    (I := fun _ w => w.state.ProposalsSound ∧ ∀ id, w.state.ReadyAt w.clock id)
    h₀ hrun ⟨proposalsSound_of_genesis h₀, ?_⟩ ?_ ?_
  · intro id pid v p _ hp
    rw [h₀.get (by simp)] at hp
    cases hp
  · rintro ks w e c t hnum ⟨hsound, hready⟩ hc hclock hexec
    refine ⟨exec_proposalsSound hnum hsound _ _ hexec, fun id => ?_⟩
    exact (exec_readyAt_iff hnum hsound ((hready id).later hclock) hexec).mpr
      ((inStep_iff hexec).mp hc id)
  · rintro ks w l ⟨hsound, hready⟩
    exact ⟨⟨hsound.counted, hsound.placed, hsound.nodup, hsound.known⟩, hready⟩

/-- What the two parties of a proposal can count on, after the history `ks` in the world `w`. -/
structure ProposalLife (ks : List Event) (w : World) (id pid : Nat) : Prop where
  once : executions id pid ks ≤ 1
  finished : w.state.Closed id pid → ∀ ls u, Run Step w ls u → executions id pid ls = 0
  sound : ∀ e a w', Step w (.call e (.multisig (.executeMultisig id pid a))) w' →
    ∃ v p, w.state.vault id = some v ∧ w.state.get (.multiSigProposal id pid) = some p ∧
      p.Live e.timestamp ∧ v.status = .locked ∧ w.state.ReachesThreshold id p
  complete : ∀ e v p, w.clock ≤ e.timestamp → w.state.vault id = some v →
    w.state.get (.multiSigProposal id pid) = some p → p.Live e.timestamp →
      e.authorized v.owner = true → (w.state.CanExecute e id pid v.owner ↔
        v.status = .locked ∧ w.state.ReachesThreshold id p)

/-- In every run whose calls keep the marks in step, every proposal is executed once at most, only
while it is live and its vault locked, and the owner can execute it exactly when the threshold is
reached. The next call leaves every mark right if and only if it meets the condition as well. -/
theorem proposal_lives (h₀ : Genesis w₀) (hrun : Run (Guarded Step (OnCalls InStep)) w₀ ks w) :
    (∀ id pid, ProposalLife ks w id pid) ∧ ∀ e c w', Step w (.call e c) w' →
      ((∀ id, w'.state.ReadyAt e.timestamp id) ↔ InStep w.state e c) := by
  have hnum := numbered_of_run hrun.unguard h₀
  obtain ⟨hsound, hready⟩ := readyAt_of_run h₀ hrun
  refine ⟨fun id pid => ⟨executions_of_run h₀ hrun.unguard, ?_, ?_, ?_⟩, ?_⟩
  · exact fun hclosed ls u => executions_of_closed hnum hsound hclosed
  · intro e a w' hstep
    obtain ⟨⟨v, p, hv, hp, happroved, hexpires⟩, -⟩ :=
      hstep.executes_once hsound Event.executes_execute
    have hlive : p.Live w'.clock := live_of_approved happroved hexpires
    have hmark := hready id pid v p hv hp (hlive.mono hstep.clock_le)
    cases hstep with
    | call => exact ⟨v, p, hv, hp, hlive, hmark.mp happroved⟩
  · intro e v p hclock hv hp hlive hauth
    rw [canExecute_iff hv hp hauth hlive.unexpired]
    exact hready id pid v p hv hp (hlive.mono hclock)
  · intro e c w' hstep
    cases hstep with
    | call hclock hexec =>
        rw [inStep_iff hexec]
        exact forall_congr' fun id =>
          exec_readyAt_iff hnum hsound ((hready id).later hclock) hexec

/-! ## Two runs -/

theorem inStep_of_pending (hmarks : KeepsMarks s e c) (h : ∀ id pid p,
    s.get (.multiSigProposal id pid) = some p → p.status = .pending) : InStep s e c := by
  refine ⟨hmarks, fun t _ id v v' _ _ _ _ pid p hp _ happroved => ?_⟩
  cases (h id pid p hp).symm.trans happroved

/-- There is one vault, and it has at most one proposal, which is pending. -/
def State.oneWaits (s : State) : Bool :=
  decide (s.count = 1 ∧ (s.vault 0).isNone ∧ (s.get (.multiSigProposalCount 1)).getD 0 ≤ 1) &&
    (s.get (.multiSigProposal 1 1)).all fun p => decide (p.status = .pending)

theorem pending_of_oneWaits (hnum : s.Numbered) (h : s.ProposalsSound) (hone : s.oneWaits = true)
    (hp : s.get (.multiSigProposal id pid) = some p) : p.status = .pending := by
  obtain ⟨hcounts, hall⟩ := Bool.and_eq_true_iff.mp hone
  obtain ⟨hcount, hzero, hproposals⟩ := of_decide_eq_true hcounts
  obtain ⟨v, hv⟩ := h.placed id pid p hp
  have hid : id = 1 := by
    rcases Nat.lt_trichotomy id 1 with hless | hone | hmore
    · rw [Nat.lt_one_iff.mp hless] at hv
      simp [hv] at hzero
    · exact hone
    · rw [hnum id (hcount ▸ hmore)] at hv
      cases hv
  subst hid
  obtain ⟨hpos, hle⟩ := h.counted 1 pid p hp
  obtain rfl : pid = 1 := Nat.le_antisymm (hle.trans hproposals) hpos
  rw [hp] at hall
  exact of_decide_eq_true hall

/-- One more call of a run whose calls keep the marks in step. -/
theorem next_of_oneWaits {turn : Env × Call} (h₀ : Genesis w₀)
    (hrun : Run (Guarded Step (OnCalls InStep)) w₀ ks w) (hone : w.state.oneWaits = true)
    (hplay : play w [turn] = some u) (hmarks : KeepsMarks w.state turn.1 turn.2) :
    Run (Guarded Step (OnCalls InStep)) w₀ (.call turn.1 turn.2 :: ks) u :=
  .next hrun ⟨step_of_play hplay, inStep_of_pending hmarks fun _ _ _ =>
    pending_of_oneWaits (numbered_of_run hrun.unguard h₀) (readyAt_of_run h₀ hrun).1 hone⟩

end Lives

/-- The owner of a vault lets a co-signer approve with a threshold, and proposes to cancel it. -/
def createShared : Env × Call := (signedBy [⟨1⟩] 0, .vault (.createVault ⟨1⟩ ⟨2⟩ 100 none))

def configureShared (threshold : Nat) : Env × Call :=
  (signedBy [⟨1⟩] 0, .multisig (.configureMultisig 1 ⟨1⟩ [⟨3⟩] threshold))

def proposeShared : Env × Call :=
  (signedBy [⟨1⟩] 0, .multisig (.proposeMultisig 1 ⟨1⟩ .cancelVault [] none))

def approveShared : Env × Call := (signedBy [⟨3⟩] 5, .multisig (.approveMultisig 1 1 ⟨3⟩))

/-- The owner and the co-signer have both approved, and the owner can execute the proposal. -/
theorem proposal_lives_approved : ∃ ks w v, Run (Guarded Step (OnCalls InStep))
    (initialised ⟨8⟩ ⟨9⟩) ks w ∧ w.state.vault 1 = some v ∧
      w.state.CanExecute (signedBy [⟨1⟩] 6) 1 1 v.owner := by
  have hplay : (play (initialised ⟨8⟩ ⟨9⟩) [createShared]).any (fun w₁ =>
    (play w₁ [configureShared 2]).any fun w₂ => (play w₂ [proposeShared]).any fun w₃ =>
    (play w₃ [approveShared]).any fun w₄ => (w₃.state.vault 1).any fun v₃ =>
    (w₄.state.vault 1).any fun v => (w₄.state.get (.multiSigProposal 1 1)).any fun p =>
      decide ((w₁.state.get (.multiSigProposalCount 1)).isNone ∧
        w₂.state.get (.multiSigConfig 1) = some ⟨[⟨3⟩], 2⟩ ∧
        w₄.state.get (.multiSigConfig 1) = some ⟨[⟨3⟩], 2⟩) &&
      decide (v₃.status = .locked ∧ v.status = .locked ∧ v.owner = ⟨1⟩) &&
      decide (w₄.clock ≤ 6 ∧ 6 ≤ p.expiresAt ∧ p.status = .approved ∧
        p.approvals.dedup.length = 2) &&
      (w₁.state.oneWaits && w₂.state.oneWaits && w₃.state.oneWaits)) = true := by
    decide +kernel
  simp only [Option.any_eq_true, Bool.and_eq_true, decide_eq_true_eq] at hplay
  obtain ⟨w₁, h₁, w₂, h₂, w₃, h₃, w₄, h₄, v₃, hv₃, v, hv, p, hp, ⟨⟨⟨hnone, hconfig₂, hconfig⟩,
    hlocked₃, hlocked, howner⟩, hclock, hexpires, happroved, hlength⟩, ⟨hone₁, hone₂⟩, hone₃⟩ :=
    hplay
  have h₀ : Genesis (initialised ⟨8⟩ ⟨9⟩) := genesis_initialised (by decide) (by decide)
  have hrun₁ : Run (Guarded Step (OnCalls InStep)) (initialised ⟨8⟩ ⟨9⟩) [.call _ _] w₁ :=
    .next .start ⟨step_of_play h₁, inStep_of_pending trivial fun id pid p hp => by
      rw [h₀.get (by simp)] at hp
      cases hp⟩
  have hrun₂ := next_of_oneWaits h₀ hrun₁ hone₁ h₂ (by
    rintro pid p hp -
    obtain ⟨hpos, hle⟩ := (readyAt_of_run h₀ hrun₁).1.counted 1 pid p hp
    rw [Option.isNone_iff_eq_none.mp hnone] at hle
    exact absurd (hpos.trans hle) (by decide))
  have hrun₃ := next_of_oneWaits h₀ hrun₂ hone₂ h₃ (by
    intro config hconfig
    obtain rfl := Option.some.inj (hconfig₂.symm.trans hconfig)
    decide)
  have hrun₄ := next_of_oneWaits h₀ hrun₃ hone₃ h₄ (by
    intro v config p hv hleft _ _
    obtain rfl := Option.some.inj (hv₃.symm.trans hv)
    exact absurd hlocked₃ hleft)
  have hlife := (proposal_lives h₀ hrun₄).1 1 1
  exact ⟨_, w₄, v, hrun₄, hv, (hlife.complete _ v p hclock hv hp
    (live_of_approved happroved hexpires) (by rw [howner]; rfl)).mpr
      ⟨hlocked, _, hconfig, hlength.ge⟩⟩

/-- The threshold is 1 and the owner has approved by proposing; still the proposal is not marked
approved, and the owner cannot execute it. -/
theorem owner_alone_stuck : ∃ w v p, Reachable w ∧ w.state.vault 1 = some v ∧
    w.state.get (.multiSigProposal 1 1) = some p ∧ v.status = .locked ∧ p.Live 5 ∧
    w.state.ReachesThreshold 1 p ∧ w.clock ≤ 5 ∧
    ¬ w.state.CanExecute (signedBy [⟨1⟩] 5) 1 1 v.owner := by
  have hplay : (play (initialised ⟨8⟩ ⟨9⟩) [createShared, configureShared 1, proposeShared]).any
      (fun w => (w.state.vault 1).any fun v => (w.state.get (.multiSigProposal 1 1)).any fun p =>
        decide (w.state.get (.multiSigConfig 1) = some ⟨[⟨3⟩], 1⟩) &&
        decide (v.status = .locked ∧ v.owner = ⟨1⟩) &&
        decide (w.clock ≤ 5 ∧ 5 ≤ p.expiresAt ∧ p.status = .pending ∧
          p.approvals.dedup.length = 1)) = true := by
    decide +kernel
  simp only [Option.any_eq_true, Bool.and_eq_true, decide_eq_true_eq] at hplay
  obtain ⟨w, hw, v, hv, p, hp, ⟨hconfig, hlocked, howner⟩, hclock, hexpires, hpending, hlength⟩ :=
    hplay
  refine ⟨w, v, p, reachable_of_play hw, hv, hp, hlocked, live_of_pending hpending hexpires,
    ⟨_, hconfig, hlength.ge⟩, hclock, fun hcan => ?_⟩
  have happroved := (canExecute_iff hv hp (by rw [howner]; rfl) hexpires).mp hcan
  cases hpending.symm.trans happroved

end Heirloom
