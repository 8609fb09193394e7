import Heirloom.Lib.Past
import Heirloom.Results.ProposalLives

/-!
# What an execution rests on

The approvals of a proposal are a list of addresses in its record, and its execution looks at a
mark only. In every run both go back to calls that were authorised.

* `execution_backed`: what an execution carries out is what the owner of that time has proposed;
  each address on the list has approved it with its own authorisation, as the owner or one of the
  signers configured then, none of them twice; and the approval that marked it brought the list
  to the threshold configured then.
-/

namespace Heirloom

open Transaction Runs

/-! ## Approvals and their calls -/

/-- The proposal has been marked approved: its status is approved, or executed, which only comes
after it. -/
def MultiSigProposal.Marked (p : MultiSigProposal) : Prop :=
  p.status = .approved ∨ p.status = .executed

/-- Both proposals ask for the same operation with the same payload, until the same time. Approvals
and status may differ. -/
structure MultiSigProposal.SameTask (p q : MultiSigProposal) : Prop where
  operation : q.operation = p.operation
  payload : q.payload = p.payload
  addressPayload : q.addressPayload = p.addressPayload
  expiresAt : q.expiresAt = p.expiresAt

/-- The event is the proposal of a task by the owner of vault `id`. -/
def Proposes (id : Nat) (p : MultiSigProposal) (a : Address) (w : World) (k : Event) : Prop :=
  ∃ e v, k = .call e (.multisig (.proposeMultisig id a p.operation p.payload p.addressPayload)) ∧
    w.state.vault id = some v ∧ a = v.owner ∧ e.authorized a = true ∧
    p.expiresAt = e.timestamp + multisigProposalExpiry

/-- The event is the approval of a proposal that the owner of vault `id` or one of the
configured signers authorises. -/
def ApprovesBy (id pid : Nat) (a : Address) (w : World) (k : Event) : Prop :=
  ∃ e v config, k = .call e (.multisig (.approveMultisig id pid a)) ∧ e.authorized a = true ∧
    w.state.vault id = some v ∧ w.state.get (.multiSigConfig id) = some config ∧
    (a = v.owner ∨ a ∈ config.signers)

/-- The event is an approval by which the list of approvals reaches the threshold in force. -/
def Completes (id pid : Nat) (approvals : List Address) (w : World) (k : Event) : Prop :=
  ∃ e a config p, k = .call e (.multisig (.approveMultisig id pid a)) ∧
    w.state.get (.multiSigConfig id) = some config ∧
    w.state.get (.multiSigProposal id pid) = some p ∧ approvals = p.approvals ++ [a] ∧
    config.threshold ≤ approvals.length ∧ e.timestamp ≤ p.expiresAt

/-- Everything on the record of a proposal goes back to a call of the run. -/
structure Backed (w₀ : World) (ks : List Event) (id pid : Nat) (p : MultiSigProposal) : Prop where
  approvals : ∃ a others, p.approvals = a :: others ∧ Happened Step w₀ (Proposes id p a) ks ∧
    ∀ b ∈ others, Happened Step w₀ (ApprovesBy id pid b) ks
  completed : p.Marked → Happened Step w₀ (Completes id pid p.approvals) ks

/-- Where a proposal comes from: from the one stored before with the same task and approvals, or
with one approval more, or it is new. -/
inductive Origin (e : Env) (s : State) (c : Call) (id pid : Nat) (q : MultiSigProposal) : Prop
  | kept (p : MultiSigProposal) : s.get (.multiSigProposal id pid) = some p → p.SameTask q →
      q.approvals = p.approvals → (q.Marked → p.Marked) → Origin e s c id pid q
  | signed (p : MultiSigProposal) (a : Address) (v : Vault) (config : MultiSigConfig) :
      s.get (.multiSigProposal id pid) = some p → p.status = .pending →
      c = .multisig (.approveMultisig id pid a) → e.authorized a = true →
      s.vault id = some v → s.get (.multiSigConfig id) = some config →
      (a = v.owner ∨ a ∈ config.signers) → e.timestamp ≤ p.expiresAt →
      q = p.approvedBy a config.threshold → Origin e s c id pid q
  | made (a : Address) (v : Vault) :
      c = .multisig (.proposeMultisig id a q.operation q.payload q.addressPayload) →
      s.vault id = some v → a = v.owner → e.authorized a = true → q.approvals = [a] →
      q.status = .pending → q.expiresAt = e.timestamp + multisigProposalExpiry →
      Origin e s c id pid q

section Origins

variable {e : Env} {s t : State} {id pid : Nat} {p q : MultiSigProposal} {c : Call}
  {m : MultisigCall} {caller : Address}

theorem MultiSigProposal.SameTask.rfl : p.SameTask p := ⟨Eq.refl _, Eq.refl _, Eq.refl _, Eq.refl _⟩

theorem MultiSigProposal.SameTask.trans {r : MultiSigProposal} (h : p.SameTask q)
    (h' : q.SameTask r) : p.SameTask r :=
  ⟨h'.operation.trans h.operation, h'.payload.trans h.payload,
    h'.addressPayload.trans h.addressPayload, h'.expiresAt.trans h.expiresAt⟩

/-- An approval marks a pending proposal only if it completes the approvals. -/
theorem threshold_le_of_marked {threshold : Nat} (hpending : p.status = .pending)
    (h : (p.approvedBy caller threshold).Marked) :
    threshold ≤ (p.approvedBy caller threshold).approvals.length := by
  by_contra hshort
  have hstatus : (p.approvedBy caller threshold).status = p.status := if_neg hshort
  simp [MultiSigProposal.Marked, hstatus, hpending] at h

/-- A proposal that changes its status only, and is not marked by that. -/
theorem Origin.status {status : ProposalStatus} (hp : s.get (.multiSigProposal id pid) = some p)
    (hmark : ({ p with status := status } : MultiSigProposal).Marked → p.Marked) :
    Origin e s c id pid { p with status := status } :=
  .kept p hp ⟨rfl, rfl, rfl, rfl⟩ rfl hmark

theorem Origin.same (hp : s.get (.multiSigProposal id pid) = some p) : Origin e s c id pid p :=
  .kept p hp .rfl rfl fun h => h

/-- A proposal that is written, or is one of the others. -/
theorem Writes.origin {i : Nat} {r : MultiSigProposal} (h : Writes id pid r s t)
    (horigin : Origin e s c id pid r) (hq : t.get (.multiSigProposal id i) = some q) :
    Origin e s c id i q := by
  rw [h.proposals] at hq
  split at hq
  · next heq =>
      obtain rfl := Option.some.inj hq
      exact heq ▸ horigin
  · exact .same hq

theorem proposeMultisig_made {op : MultiSigOperation} {payload : Bytes} {a : Option Address} :
    wp (proposeMultisig id caller op payload a) (fun pid t => ∃ v q, s.vault id = some v ∧
      caller = v.owner ∧ e.authorized caller = true ∧ Writes id pid q s t ∧
      q.operation = op ∧ q.payload = payload ∧ q.addressPayload = a ∧ q.approvals = [caller] ∧
      q.status = .pending ∧ q.expiresAt = e.timestamp + multisigProposalExpiry) e s := by
  simp only [proposeMultisig, Tx.wp_bind, wp_loadLockedByOwner, wp_storageGet, Tx.wp_fromSome,
    wp_u64, wp_timestamp, Tx.wp_pure, wp_storageSet]
  intro hauth v hv howner _ _ _ _ _
  exact ⟨v, _, hv, howner, hauth, (writes_put.put (by simp) (by simp)).put (by simp) (by simp),
    rfl, rfl, rfl, rfl, rfl, rfl⟩

theorem approveMultisig_signed : wp (approveMultisig id pid caller) (fun _ t => ∃ v config p,
    e.authorized caller = true ∧ s.vault id = some v ∧
    s.get (.multiSigConfig id) = some config ∧ (caller = v.owner ∨ caller ∈ config.signers) ∧
    s.get (.multiSigProposal id pid) = some p ∧ p.status = .pending ∧
    e.timestamp ≤ p.expiresAt ∧ Writes id pid (p.approvedBy caller config.threshold) s t) e s := by
  simp only [approveMultisig, loadConfigBySigner, Tx.wp_bind, wp_requireAuth, wp_loadVault,
    wp_require, wp_storageGet, Tx.wp_fromSome, wp_loadProposal, wp_timestamp, Tx.wp_pure,
    wp_storageSet]
  intro hauth config hconfig v hv hsigner p hp hpending hexpires _
  exact ⟨v, config, p, hauth, hv, hconfig, hsigner, hp, hpending, hexpires, writes_put⟩

theorem multisig_origin (h : s.ProposalsSound) (hexec : exec (.multisig m) e s = .ok ((), t))
    (hq : t.get (.multiSigProposal m.vault pid) = some q) :
    Origin e s (.multisig m) m.vault pid q := by
  cases exec_revision h hexec with
  | configured _ _ _ hsame _ | removed _ _ hsame _ => exact .same ((hsame pid).symm.trans hq)
  | reduced _ config _ _ hmap _ =>
      -- with fewer signers, what cannot be completed any more is rejected
      obtain ⟨p, hp, rfl⟩ := Option.map_eq_some_iff.mp ((hmap pid).symm.trans hq)
      unfold MultiSigProposal.rejectShort
      split
      · exact .status hp (by simp [MultiSigProposal.Marked])
      · exact .same hp
  | proposed =>
      obtain ⟨_, _, hpropose, hpure⟩ := Tx.ok_bind.mp hexec
      obtain ⟨v, r, hv, howner, hauth, hwrites, rfl, rfl, rfl, happrovals, hpending, hexpires⟩ :=
        proposeMultisig_made _ _ hpropose
      obtain ⟨-, rfl⟩ := Tx.ok_pure.mp hpure
      refine hwrites.origin ?_ hq
      exact .made _ v rfl hv howner hauth happrovals hpending hexpires
  | approved =>
      obtain ⟨v, config, p, hauth, hv, hconfig, hsigner, hp, hpending, hexpires, hwrites⟩ :=
        approveMultisig_signed _ _ hexec
      refine hwrites.origin ?_ hq
      exact .signed p _ v config hp hpending rfl hauth hv hconfig hsigner hexpires rfl
  | rejected _ p _ hp _ hwrites =>
      exact hwrites.origin (.status hp (by simp [MultiSigProposal.Marked])) hq
  | vetoed _ p _ hp hwrites =>
      exact hwrites.origin (.status hp (by simp [MultiSigProposal.Marked])) hq
  | executed _ p _ hp happroved _ hwrites =>
      exact hwrites.origin (.status hp fun _ => .inl happroved) hq

theorem exec_origin (hnum : s.Numbered) (h : s.ProposalsSound) (hexec : exec c e s = .ok ((), t))
    (hq : t.get (.multiSigProposal id pid) = some q) : Origin e s c id pid q := by
  by_cases hc : ∃ m, c = .multisig m ∧ m.vault = id
  · obtain ⟨m, rfl, rfl⟩ := hc
    exact multisig_origin h hexec hq
  · rw [(exec_elsewhere hnum hexec fun m hm hid => hc ⟨m, hm, hid⟩).1] at hq
    exact .same hq

end Origins

/-! ## Every run -/

section Provenance

variable {w₀ w w' : World} {ks : List Event} {k : Event} {id pid : Nat} {p : MultiSigProposal}
  {a : Address}

theorem proposalsSound_of_run (h₀ : Genesis w₀) (hrun : Run Step w₀ ks w) :
    w.state.Numbered ∧ w.state.ProposalsSound := by
  refine hrun.invariant (I := fun w => w.state.Numbered ∧ w.state.ProposalsSound)
    ⟨numbered_of_run .start h₀, proposalsSound_of_genesis h₀⟩ ?_
  rintro t k u ⟨hnum, hsound⟩ hstep
  exact ⟨hstep.numbered hnum, hstep.proposalsSound hnum hsound⟩

/-- The proposals of a state after a step, and where they come from. -/
theorem Step.origin (hstep : Step w k w') (hnum : w.state.Numbered) (h : w.state.ProposalsSound)
    (hp : w'.state.get (.multiSigProposal id pid) = some p) :
    w.state.get (.multiSigProposal id pid) = some p ∨
      ∃ e c, k = .call e c ∧ Origin e w.state c id pid p := by
  cases hstep with
  | tokens _ _ => exact .inl hp
  | call _ hexec => exact .inr ⟨_, _, rfl, exec_origin hnum h hexec hp⟩

/-- Every proposal has an approval. -/
theorem approvals_ne_nil (h₀ : Genesis w₀) (hrun : Run Step w₀ ks w)
    (hp : w.state.get (.multiSigProposal id pid) = some p) : p.approvals ≠ [] := by
  induction hrun generalizing p with
  | start =>
      rw [h₀.get (by simp)] at hp
      cases hp
  | next hrun hstep ih =>
      obtain ⟨hnum, hsound⟩ := proposalsSound_of_run h₀ hrun
      rcases hstep.origin hnum hsound hp with hsame | ⟨e, c, rfl, horigin⟩
      · exact ih hsame
      · cases horigin with
        | kept r hr _ happrovals _ => exact happrovals ▸ ih hr
        | signed r b _ _ _ _ _ _ _ _ _ _ hq =>
            subst hq
            exact List.append_ne_nil_of_right_ne_nil _ (List.cons_ne_nil b [])
        | made b _ _ _ _ _ happrovals _ _ => exact happrovals ▸ List.cons_ne_nil b []

/-- The task and the first approval of a proposal are those of the owner who made it. -/
theorem proposes_happened (h₀ : Genesis w₀) (hrun : Run Step w₀ ks w)
    (hp : w.state.get (.multiSigProposal id pid) = some p) (ha : p.approvals.head? = some a) :
    Happened Step w₀ (Proposes id p a) ks := by
  refine hrun.provenance
    (I := fun w q => ∃ r, w.state.get (.multiSigProposal id pid) = some r ∧ r.SameTask q ∧
      r.approvals.head? = some a)
    (B := fun q => Proposes id q a) ?_ ?_ ⟨p, hp, .rfl, ha⟩
  · rintro q ⟨r, hr, -⟩
    rw [h₀.get (by simp)] at hr
    cases hr
  · rintro ks t k u q hrun hstep ⟨r, hr, htask, hhead⟩
    obtain ⟨hnum, hsound⟩ := proposalsSound_of_run h₀ hrun
    rcases hstep.origin hnum hsound hr with hsame | ⟨e, c, rfl, horigin⟩
    · exact .inl ⟨r, hsame, htask, hhead⟩
    · cases horigin with
      | kept r' hr' htask' happrovals _ =>
          exact .inl ⟨r', hr', htask'.trans htask, happrovals ▸ hhead⟩
      | signed r' b v config hr' _ _ _ _ _ _ _ hq =>
          subst hq
          refine .inl ⟨r', hr', ⟨htask.operation, htask.payload, htask.addressPayload,
            htask.expiresAt⟩, ?_⟩
          exact (List.head?_append_of_ne_nil _ (approvals_ne_nil h₀ hrun hr')).symm.trans hhead
      | made b v hc hv howner hauth happrovals _ hexpires =>
          obtain rfl : b = a := by simpa [happrovals] using hhead
          refine .inr ⟨e, v, ?_, hv, howner, hauth, htask.expiresAt.trans hexpires⟩
          rw [hc, htask.operation, htask.payload, htask.addressPayload]

/-- All other approvals are those of the owner or a signer. -/
theorem approves_happened (h₀ : Genesis w₀) (hrun : Run Step w₀ ks w)
    (hp : w.state.get (.multiSigProposal id pid) = some p) (ha : a ∈ p.approvals.tail) :
    Happened Step w₀ (ApprovesBy id pid a) ks := by
  refine hrun.provenance
    (I := fun w b => ∃ r, w.state.get (.multiSigProposal id pid) = some r ∧
      b ∈ r.approvals.tail)
    (B := fun b => ApprovesBy id pid b) ?_ ?_ ⟨p, hp, ha⟩
  · rintro b ⟨r, hr, -⟩
    rw [h₀.get (by simp)] at hr
    cases hr
  · rintro ks t k u b hrun hstep ⟨r, hr, hb⟩
    obtain ⟨hnum, hsound⟩ := proposalsSound_of_run h₀ hrun
    rcases hstep.origin hnum hsound hr with hsame | ⟨e, c, rfl, horigin⟩
    · exact .inl ⟨r, hsame, hb⟩
    · cases horigin with
      | kept r' hr' _ happrovals _ => exact .inl ⟨r', hr', happrovals ▸ hb⟩
      | signed r' b' v config hr' _ hc hauth hv hconfig hsigner _ hq =>
          subst hq hc
          have htail : (r'.approvedBy b' config.threshold).approvals.tail =
              r'.approvals.tail ++ [b'] :=
            List.tail_append_of_ne_nil (approvals_ne_nil h₀ hrun hr')
          -- the approval that is new comes last
          rw [htail] at hb
          rcases List.mem_append.mp hb with hold | hnew
          · exact .inl ⟨r', hr', hold⟩
          · obtain rfl := List.mem_singleton.mp hnew
            exact .inr ⟨e, v, config, rfl, hauth, hv, hconfig, hsigner⟩
      | made b' v _ _ _ _ happrovals _ _ =>
          rw [happrovals] at hb
          cases hb

/-- The approvals of a marked proposal have reached the threshold of their time. -/
theorem completes_happened (h₀ : Genesis w₀) (hrun : Run Step w₀ ks w)
    (hp : w.state.get (.multiSigProposal id pid) = some p) (hmarked : p.Marked) :
    Happened Step w₀ (Completes id pid p.approvals) ks := by
  refine hrun.provenance
    (I := fun w l => ∃ r, w.state.get (.multiSigProposal id pid) = some r ∧ r.Marked ∧
      r.approvals = l)
    (B := fun l => Completes id pid l) ?_ ?_ ⟨p, hp, hmarked, rfl⟩
  · rintro l ⟨r, hr, -⟩
    rw [h₀.get (by simp)] at hr
    cases hr
  · rintro ks t k u l hrun hstep ⟨r, hr, hmarked, rfl⟩
    obtain ⟨hnum, hsound⟩ := proposalsSound_of_run h₀ hrun
    rcases hstep.origin hnum hsound hr with hsame | ⟨e, c, rfl, horigin⟩
    · exact .inl ⟨r, hsame, hmarked, rfl⟩
    · cases horigin with
      | kept r' hr' _ happrovals hmark => exact .inl ⟨r', hr', hmark hmarked, happrovals.symm⟩
      | signed r' b v config hr' hpending hc hauth hv hconfig hsigner hexpires hq =>
          -- it was pending, so this approval has marked it
          subst hq hc
          exact .inr ⟨e, b, config, r', rfl, hconfig, hr', rfl,
            threshold_le_of_marked hpending hmarked, hexpires⟩
      | made b v _ _ _ _ _ hpending _ =>
          exact absurd hmarked (by simp [MultiSigProposal.Marked, hpending])

theorem backed_of_run (h₀ : Genesis w₀) (hrun : Run Step w₀ ks w)
    (hp : w.state.get (.multiSigProposal id pid) = some p) : Backed w₀ ks id pid p := by
  refine ⟨?_, completes_happened h₀ hrun hp⟩
  obtain ⟨a, others, hlist⟩ := List.exists_cons_of_ne_nil (approvals_ne_nil h₀ hrun hp)
  refine ⟨a, others, hlist, proposes_happened h₀ hrun hp (by rw [hlist]; rfl), fun b hb => ?_⟩
  exact approves_happened h₀ hrun hp (by rw [hlist]; exact hb)

/-- Whatever is executed in a run: the owner executes it, in time, and everything on its record
goes back to calls that were authorised; it does to the vault what was proposed. -/
theorem execution_backed {e : Env} (h₀ : Genesis w₀) (hrun : Run Step w₀ ks w)
    (hstep : Step w (.call e (.multisig (.executeMultisig id pid a))) w') :
    ∃ v p, Executes e id pid a v p w.state w'.state ∧ p.approvals.Nodup ∧
      Backed w₀ ks id pid p := by
  obtain ⟨v, p, hdone⟩ := executeMultisig_spec _ _ hstep.exec_eq
  obtain ⟨-, hsound⟩ := proposalsSound_of_run h₀ hrun
  exact ⟨v, p, hdone, hsound.nodup id pid p hdone.proposal, backed_of_run h₀ hrun hdone.proposal⟩

/-- The owner and the co-signer agree to cancel the vault; the co-signer has signed for it. -/
theorem cancellation_backed : ∃ ks w, Run Step (initialised ⟨8⟩ ⟨9⟩) ks w ∧
    (∃ w', Step w (.call (signedBy [⟨1⟩] 6) (.multisig (.executeMultisig 1 1 ⟨1⟩))) w') ∧
      Happened Step (initialised ⟨8⟩ ⟨9⟩) (ApprovesBy 1 1 ⟨3⟩) ks := by
  have hplay : (play (initialised ⟨8⟩ ⟨9⟩)
      [createShared, configureShared 2, proposeShared, approveShared]).any (fun w =>
        (play w [(signedBy [⟨1⟩] 6, .multisig (.executeMultisig 1 1 ⟨1⟩))]).any fun _ =>
          (w.state.get (.multiSigProposal 1 1)).any fun p =>
            decide (p.approvals = [⟨1⟩, ⟨3⟩])) = true := by
    decide +kernel
  obtain ⟨w, hw, hplay⟩ := (Option.any_eq_true _ _).mp hplay
  obtain ⟨w', hw', hplay⟩ := (Option.any_eq_true _ _).mp hplay
  obtain ⟨p, hp, happrovals⟩ := (Option.any_eq_true _ _).mp hplay
  obtain ⟨v, p', hdone, -, hbacked⟩ := execution_backed
    (genesis_initialised (by decide) (by decide)) (run_of_play hw) (step_of_play hw')
  obtain rfl := Option.some.inj (hp.symm.trans hdone.proposal)
  obtain ⟨a, others, hlist, -, hothers⟩ := hbacked.approvals
  rw [of_decide_eq_true happrovals] at hlist
  cases hlist
  exact ⟨_, w, run_of_play hw, ⟨w', step_of_play hw'⟩, hothers _ List.mem_cons_self⟩

end Provenance

end Heirloom
