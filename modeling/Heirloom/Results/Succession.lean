import Heirloom.System

/-!
# Who owns and who inherits

Three results about the two roles of a vault.

* A locked vault is never bequeathed to its own owner, as long as the second
  step of a pending request is checked against the other role
  (`owner_ne_beneficiary`). The code checks only the first step, and two pending
  requests can cross (`owner_inherits_from_itself`).
* An ownership request is accepted only from the owner who made it, as long as
  no direct transfer overtakes it (`accepted_from_initiator`); `transfer_ownership`
  leaves the request of the former owner in place (`stale_request_accepted`).
* Once a vault has left the locked state its heirs are fixed
  (`payee_fixed`), except for three calls that do not look at the status
  (`payee_changed_after_release`).
-/

namespace Heirloom

open Transaction Runs

/-! ## The owner is not the heir -/

/-- No locked vault is bequeathed to its own owner, which every path to either role should see to.
-/
def State.HeirApart (s : State) : Prop :=
  ∀ id v, s.vault id = some v → v.status = .locked → v.owner ≠ v.beneficiary

/-- The second step of a request finds the other role different from the new one. -/
def RolesChecked (s : State) (_ : Env) : Call → Prop
  | .heir (.applyBeneficiaryUpdate id _) => ∀ v p, s.vault id = some v → v.status = .locked →
      s.get (.pendingBeneficiaryUpdate id) = some p → p.newBeneficiary ≠ v.owner
  | .ownership (.acceptOwnershipTransfer id a) => ∀ v, s.vault id = some v → a ≠ v.beneficiary
  | _ => True

section Apart

variable {e : Env} {s t : State} {c : Call} {id : Nat} {v w : Vault} {log : Log}

/-- A call that replaces one record keeps the roles apart if the new record does. -/
theorem State.HeirApart.of_transacts (h : s.HeirApart) (htx : Transacts id v w log s t)
    (hw : v.status = .locked → w.status = .locked → w.owner ≠ w.beneficiary)
    (hlocked : w.status = .locked → v.status = .locked) : t.HeirApart := by
  intro i x hx hstatus
  rw [htx.after i] at hx
  by_cases hi : i = id
  · obtain rfl : w = x := by simpa [hi] using hx
    exact hw (hlocked hstatus) hstatus
  · exact h i x (by simpa [hi] using hx) hstatus

/-- An approved proposal checks the new role against the other one. -/
theorem Executes.heirApart {p : MultiSigProposal} {pid : Nat} {caller : Address}
    (h : Executes e id pid caller v p s t) (hs : s.HeirApart) : t.HeirApart := by
  obtain ⟨w, log, htx, houtcome, -⟩ := h.funds
  have hv := hs id v h.vault
  cases hop : p.operation <;> simp only [hop, MultiSigProposal.Outcome] at houtcome
  case withdraw =>
    obtain ⟨_, _, _, rfl⟩ := houtcome
    exact hs.of_transacts htx (fun _ => hv) fun h => h
  case updateBeneficiary =>
    obtain ⟨a, _, hne, rfl⟩ := houtcome
    exact hs.of_transacts htx (fun _ _ => hne.symm) fun h => h
  case cancelVault =>
    subst houtcome
    exact hs.of_transacts htx (by simp) (by simp)
  case updateCheckInInterval =>
    obtain ⟨_, _, rfl⟩ := houtcome
    exact hs.of_transacts htx (fun _ => hv) fun h => h
  case transferOwnership =>
    obtain ⟨a, _, hne, rfl⟩ := houtcome
    exact hs.of_transacts htx (fun _ _ => hne) fun h => h

/-- A call that writes neither role keeps them apart. -/
theorem State.HeirApart.of_frame {f : Footprint} (h : s.HeirApart) (hframe : Frame f s t)
    (hcreation : .creation ∉ f.parts) (howner : .owner ∉ f.parts)
    (hheir : .beneficiary ∉ f.parts) : t.HeirApart := by
  intro i w hw hstatus
  obtain ⟨v, hv, hagree⟩ := hframe.vault_before hcreation hw
  rw [hagree.owner.resolve_left howner, hagree.beneficiary.resolve_left hheir]
  exact h i v hv ((hagree.status.resolve_right fun hc => hc.2 hstatus) ▸ hstatus)

theorem exec_heirApart (hnum : s.Numbered) (hs : s.HeirApart) (hc : RolesChecked s e c) :
    wp (exec c) (fun _ t => t.HeirApart) e s := by
  by_cases hcreating : c.Creating
  · refine Tx.wp_mono (exec_creates hcreating) ?_
    rintro _ t ⟨v, hcreates⟩ i w hw
    rw [hcreates.vault i] at hw
    split at hw
    · obtain rfl : v = w := by simpa using hw
      exact fun _ => hcreates.fresh.apart
    · exact hs i w hw
  by_cases howner : .owner ∈ (c.footprint s).parts
  · obtain ⟨id, a, b, rfl⟩ | ⟨id, a, rfl⟩ | ⟨id, p, a, rfl⟩ := Call.owner_writer howner
    · refine Tx.wp_mono transferOwnership_spec ?_
      rintro _ t ⟨v, htx, _, _, _, hne⟩
      exact hs.of_transacts htx (fun _ _ => hne) fun h => h
    · refine Tx.wp_mono acceptOwnershipTransfer_spec ?_
      rintro _ t ⟨v, r, htx, _⟩
      exact hs.of_transacts htx (fun _ _ => hc v htx.before) fun h => h
    · refine Tx.wp_mono executeMultisig_spec ?_
      rintro _ t ⟨v, p, hexec⟩
      exact hexec.heirApart hs
  by_cases hheir : .beneficiary ∈ (c.footprint s).parts
  · obtain ⟨id, a, rfl⟩ | ⟨id, p, a, rfl⟩ := Call.beneficiary_writer hheir
    · refine Tx.wp_mono applyBeneficiaryUpdate_spec ?_
      rintro _ t ⟨v, p, htx, _, _, hp, _⟩
      exact hs.of_transacts htx (fun hl _ => (hc v p htx.before hl hp).symm) fun h => h
    · refine Tx.wp_mono executeMultisig_spec ?_
      rintro _ t ⟨v, p, hexec⟩
      exact hexec.heirApart hs
  · refine Tx.wp_mono (exec_frame c hnum) fun _ t hframe => ?_
    exact hs.of_frame hframe (Call.not_creation hcreating).1 howner hheir

end Apart

/-- In every run whose second steps find the roles apart, no locked vault is
bequeathed to its own owner. -/
theorem owner_ne_beneficiary {w₀ w : World} {ks : List Event} (h₀ : Genesis w₀)
    (hrun : Run (Guarded Step (OnCalls RolesChecked)) w₀ ks w) : w.state.HeirApart :=
  invariant_of_calls h₀ hrun (fun id v hv => by simp [h₀.vault id] at hv)
    (fun hnum hI hP => exec_heirApart hnum hI hP) (fun _ h => h)

/-- A run in which ownership changes twice. -/
theorem owner_ne_beneficiary_after_transfers : ∃ w, Reachable w ∧ w.state.HeirApart ∧
    (w.state.vault 1).map (·.owner) = some ⟨4⟩ := by
  have hplay : (play (initialised ⟨8⟩ ⟨9⟩)
      [opensVault 100,
        (signedBy [⟨1⟩] 10, .ownership (.transferOwnership 1 ⟨1⟩ ⟨3⟩)),
        (signedBy [⟨3⟩] 20, .ownership (.transferOwnership 1 ⟨3⟩ ⟨4⟩))]).any
      (fun w => (w.state.vault 1).map (·.owner) = some ⟨4⟩) = true := by decide +kernel
  obtain ⟨w, hw, howner⟩ := (Option.any_eq_true _ _).mp hplay
  have h₀ : Genesis (initialised ⟨8⟩ ⟨9⟩) := genesis_initialised (by decide) (by decide)
  exact ⟨w, reachable_of_play hw,
    owner_ne_beneficiary h₀ (guarded_of_play (by simp [RolesChecked]) hw), by simpa using howner⟩

/-- Two requests cross: the vault is handed over to the heir that it is about to get. -/
theorem owner_inherits_from_itself : ¬ ∀ w, Reachable w → w.state.HeirApart := by
  have hplay : (play (initialised ⟨8⟩ ⟨9⟩)
      [opensVault 100,
        (signedBy [⟨1⟩] 0, .ownership (.initiateOwnershipTransfer 1 ⟨1⟩ ⟨3⟩)),
        (signedBy [⟨1⟩] 1, .heir (.updateBeneficiary 1 ⟨1⟩ ⟨3⟩)),
        (signedBy [⟨3⟩] 90000, .ownership (.acceptOwnershipTransfer 1 ⟨3⟩)),
        (signedBy [⟨3⟩] 90000, .heir (.applyBeneficiaryUpdate 1 ⟨3⟩))]).any
      (fun w => (w.state.vault 1).any fun v => v.status = .locked ∧ v.owner = v.beneficiary) =
        true := by decide +kernel
  obtain ⟨w, hw, hv⟩ := (Option.any_eq_true _ _).mp hplay
  obtain ⟨v, hv, hself⟩ : ∃ v, w.state.vault 1 = some v ∧ v.status = .locked ∧
      v.owner = v.beneficiary := by simpa [Option.any_eq_true] using hv
  intro h
  exact h w (reachable_of_play hw) 1 v hv hself.1 hself.2

/-! ## Pending ownership requests -/

/-- A request to hand vault `id` over: who makes it, for whom and when. -/
def Event.request? (id : Nat) : Event → Option (Address × Address × Nat)
  | .call e (.ownership (.initiateOwnershipTransfer i caller newOwner)) =>
      if i = id then some (caller, newOwner, e.timestamp) else none
  | _ => none

/-- The newest request for vault `id`. -/
def lastRequest (id : Nat) (ks : List Event) : Option (Address × Address × Nat) :=
  ks.findSome? (Event.request? id)

/-- A request to transfer vault `id` is stored that can still be accepted at `now`. -/
def State.RequestOpen (s : State) (id now : Nat) : Prop :=
  ∃ r, s.get (.pendingOwnership id) = some r ∧ now ≤ r.expiresAt

/-- Vault `id` changes hands in one step only while no request is open, be it by a transfer to
somebody else or by a proposal that does not name its caller. -/
def NotOvertaken (id : Nat) (s : State) (e : Env) : Call → Prop
  | .ownership (.transferOwnership i caller newOwner) =>
      i = id → caller ≠ newOwner → ¬ s.RequestOpen id e.timestamp
  | .multisig (.executeMultisig i pid caller) => i = id → ∀ p,
      s.get (.multiSigProposal id pid) = some p → p.operation = .transferOwnership →
        p.addressPayload ≠ some caller → ¬ s.RequestOpen id e.timestamp
  | _ => True

/-- The stored request is the newest one, and while it is open its author owns the vault. -/
def RequestKept (id : Nat) (ks : List Event) (w : World) : Prop :=
  ∀ r, w.state.get (.pendingOwnership id) = some r → ∃ caller newOwner now,
    lastRequest id ks = some (caller, newOwner, now) ∧ r = ownershipRequest newOwner now ∧
      (w.clock ≤ r.expiresAt → ∃ v, w.state.vault id = some v ∧ v.owner = caller)

section Requests

variable {e : Env} {s t : State} {c : Call} {id : Nat} {ks : List Event} {w : World}

/-- A call that leaves the request and, while it is open, the owner alone. -/
theorem RequestKept.next (h : RequestKept id ks w) (hclock : w.clock ≤ e.timestamp)
    (hks : lastRequest id (.call e c :: ks) = lastRequest id ks)
    (hget : ∀ r, t.get (.pendingOwnership id) = some r →
      w.state.get (.pendingOwnership id) = some r)
    (howner : w.state.RequestOpen id e.timestamp → ∀ v, w.state.vault id = some v →
      ∃ v', t.vault id = some v' ∧ v'.owner = v.owner) :
    RequestKept id (.call e c :: ks) ⟨t, e.timestamp⟩ := by
  intro r hr
  obtain ⟨caller, newOwner, now, hlast, hreq, hopen⟩ := h r (hget r hr)
  refine ⟨caller, newOwner, now, hks.trans hlast, hreq, fun hexp => ?_⟩
  obtain ⟨v, hv, hcaller⟩ := hopen (hclock.trans hexp)
  obtain ⟨v', hv', hsame⟩ := howner ⟨r, hget r hr, hexp⟩ v hv
  exact ⟨v', hv', hsame.trans hcaller⟩

theorem lastRequest_cons_of_ne
    (h : ∀ i a b, c = .ownership (.initiateOwnershipTransfer i a b) → i ≠ id) :
    lastRequest id (.call e c :: ks) = lastRequest id ks := by
  have hnone : Event.request? id (.call e c) = none := by
    unfold Event.request?
    split
    · next heq =>
        obtain ⟨rfl, rfl⟩ := Event.call.inj heq
        exact if_neg (h _ _ _ rfl)
    · rfl
  simp [lastRequest, hnone]

/-- Calls of another vault leave the request and the owner alone. -/
theorem RequestKept.of_vault_notMem {f : Footprint} (h : RequestKept id ks w)
    (hclock : w.clock ≤ e.timestamp) (hframe : Frame f w.state t) (hid : id ∉ f.vaults)
    (hks : lastRequest id (.call e c :: ks) = lastRequest id ks) :
    RequestKept id (.call e c :: ks) ⟨t, e.timestamp⟩ := by
  refine h.next hclock hks (fun r hr => ?_) fun _ v hv => ⟨v, ?_, rfl⟩
  · rwa [← hframe.get_of_vault (k := .pendingOwnership id) rfl hid]
  · rwa [hframe.vault_eq hid]

/-- A call that may write neither requests nor owners. -/
theorem RequestKept.of_frame {f : Footprint} (h : RequestKept id ks w)
    (hclock : w.clock ≤ e.timestamp) (hframe : Frame f w.state t) (harea : .transfers ∉ f.areas)
    (howner : w.state.RequestOpen id e.timestamp → ∀ v, w.state.vault id = some v →
      ∃ v', t.vault id = some v' ∧ v'.owner = v.owner)
    (hks : lastRequest id (.call e c :: ks) = lastRequest id ks) :
    RequestKept id (.call e c :: ks) ⟨t, e.timestamp⟩ := by
  refine h.next hclock hks (fun r hr => ?_) howner
  rwa [← hframe.get_of_area (k := .pendingOwnership id) (by simpa using harea)]

theorem exec_requestKept (hnum : w.state.Numbered) (h : RequestKept id ks w)
    (hP : NotOvertaken id w.state e c) (hclock : w.clock ≤ e.timestamp)
    (hexec : exec c e w.state = .ok ((), t)) :
    RequestKept id (.call e c :: ks) ⟨t, e.timestamp⟩ := by
  have hframe : Frame (c.footprint w.state) w.state t := exec_frame c hnum _ _ hexec
  by_cases hmem : id ∈ (c.footprint w.state).vaults
  swap
  · refine h.of_vault_notMem hclock hframe hmem (lastRequest_cons_of_ne ?_)
    rintro i a b rfl rfl
    simp [Call.footprint, OwnershipCall.footprint] at hmem
  by_cases htransfers : .transfers ∈ (c.footprint w.state).areas
  · obtain ⟨o, rfl⟩ | ⟨i, a, b, rfl⟩ | ⟨i, a, rfl⟩ := Call.transfers_writer htransfers
    · cases o with
      | transferOwnership => simp [Call.footprint, OwnershipCall.footprint] at htransfers
      | initiateOwnershipTransfer i a b =>
          obtain rfl : id = i := by simpa [Call.footprint, OwnershipCall.footprint] using hmem
          obtain ⟨n, hn⟩ : ∃ n, initiateOwnershipTransfer id a b e w.state = .ok (n, t) := by
            simpa [exec, execOwnership] using hexec
          obtain ⟨rfl, v, hv, rfl, -⟩ := initiateOwnershipTransfer_spec _ _ hn
          intro r hr
          obtain rfl : ownershipRequest b e.timestamp = r := by simpa using hr
          exact ⟨v.owner, b, e.timestamp, by simp [lastRequest, Event.request?], rfl,
            fun _ => ⟨v, by simpa using hv, rfl⟩⟩
      | acceptOwnershipTransfer i a =>
          obtain rfl : id = i := by simpa [Call.footprint, OwnershipCall.footprint] using hmem
          obtain ⟨_, _, _, _, _, _, _, _, hnone⟩ := acceptOwnershipTransfer_spec _ _ hexec
          intro r hr
          simp [hnone] at hr
      | cancelOwnershipTransfer i a =>
          obtain rfl : id = i := by simpa [Call.footprint, OwnershipCall.footprint] using hmem
          have hnone : wp (cancelOwnershipTransfer id a)
              (fun _ t => t.get (.pendingOwnership id) = none) e w.state := by
            simp [cancelOwnershipTransfer]
          intro r hr
          simp [hnone _ _ hexec] at hr
      | expireOwnershipTransfer i =>
          obtain rfl : id = i := by simpa [Call.footprint, OwnershipCall.footprint] using hmem
          have hnone : wp (expireOwnershipTransfer id)
              (fun _ t => t.get (.pendingOwnership id) = none) e w.state := by
            simp [expireOwnershipTransfer]
          intro r hr
          simp [hnone _ _ hexec] at hr
    · have hkeep : wp (updateBeneficiary i a b) (fun _ t => t.get (.pendingOwnership id) =
          w.state.get (.pendingOwnership id)) e w.state := by
        simp [updateBeneficiary]
      refine h.next hclock (lastRequest_cons_of_ne (by simp)) (fun r hr => hkeep _ _ hexec ▸ hr) ?_
      intro _ v hv
      obtain ⟨v', hv', hagree⟩ := hframe.kept id v hv
      exact ⟨v', hv', hagree.owner.resolve_left (by simp [Call.footprint, HeirCall.footprint])⟩
    · have hkeep : wp (applyBeneficiaryUpdate i a) (fun _ t => t.get (.pendingOwnership id) =
          w.state.get (.pendingOwnership id)) e w.state := by
        simp [applyBeneficiaryUpdate, moveBeneficiaryIndex]
      refine h.next hclock (lastRequest_cons_of_ne (by simp)) (fun r hr => hkeep _ _ hexec ▸ hr) ?_
      intro _ v hv
      obtain ⟨v', hv', hagree⟩ := hframe.kept id v hv
      exact ⟨v', hv', hagree.owner.resolve_left (by simp [Call.footprint, HeirCall.footprint])⟩
  · refine h.of_frame hclock hframe htransfers (fun hopen v hv => ?_) (lastRequest_cons_of_ne ?_)
    swap
    · rintro i a b rfl
      simp [Call.footprint, OwnershipCall.footprint] at htransfers
    by_cases howner : .owner ∈ (c.footprint w.state).parts
    · obtain ⟨i, a, b, rfl⟩ | ⟨i, a, rfl⟩ | ⟨i, pid, a, rfl⟩ := Call.owner_writer howner
      · obtain rfl : id = i := by simpa [Call.footprint, OwnershipCall.footprint] using hmem
        obtain ⟨v', htx, _, rfl, -⟩ := transferOwnership_spec _ _ hexec
        obtain rfl : v' = v := by simpa [hv] using htx.before.symm
        -- a transfer to oneself is the only one that an open request allows
        have hself : v'.owner = b := by
          by_contra hne
          exact hP rfl hne hopen
        exact ⟨_, by simpa using htx.after id, by simpa using hself.symm⟩
      · simp [Call.footprint, OwnershipCall.footprint] at htransfers
      · obtain rfl : id = i := by simpa [Call.footprint, MultisigCall.footprint] using hmem
        obtain ⟨v', p, hdone⟩ := executeMultisig_spec _ _ hexec
        obtain rfl : v' = v := by simpa [hv] using hdone.vault.symm
        obtain ⟨w', _, htx, houtcome, -⟩ := hdone.funds
        refine ⟨w', by simpa using htx.after id, ?_⟩
        cases hop : p.operation <;> simp only [hop, MultiSigProposal.Outcome] at houtcome
        case transferOwnership =>
          obtain ⟨b, hb, _, rfl⟩ := houtcome
          by_contra hne
          refine hP rfl p hdone.proposal hop (fun hcaller => hne ?_) hopen
          obtain rfl : b = a := by simpa [hb] using hcaller
          exact hdone.owner
        all_goals grind [Vault.withBalance, Vault.withBeneficiary, Vault.withStatus,
          Vault.withCheckInInterval, Vault.withLastCheckIn]
    · obtain ⟨v', hv', hagree⟩ := hframe.kept id v hv
      exact ⟨v', hv', hagree.owner.resolve_left howner⟩

end Requests

/-- In every run in which no direct transfer of vault `id` overtakes an open request,
a request is accepted from the address that made it, which still owns the locked
vault, and within its time. -/
theorem accepted_from_initiator {w₀ w w' : World} {ks : List Event} {id : Nat} {e : Env}
    {x : Address} (h₀ : Genesis w₀) (hrun : Run (Guarded Step (OnCalls (NotOvertaken id))) w₀ ks w)
    (hstep : Step w (.call e (.ownership (.acceptOwnershipTransfer id x))) w') :
    ∃ v initiatedAt, w.state.vault id = some v ∧ v.status = .locked ∧
      lastRequest id ks = some (v.owner, x, initiatedAt) ∧
      initiatedAt + ownershipTransferTimelock ≤ e.timestamp ∧
      e.timestamp ≤ initiatedAt + ownershipTransferExpiry := by
  have hkept : RequestKept id ks w := history_of_calls h₀ hrun
    (fun r hr => by simp [h₀.get (k := .pendingOwnership id) (by simp)] at hr)
    (fun hnum h hP hclock hexec => exec_requestKept hnum h hP hclock hexec)
    (fun _ h => h)
  cases hstep with
  | call hclock hexec =>
      obtain ⟨v, r, htx, hlocked, hr, rfl, hunlocked, hexpires, -⟩ :=
        acceptOwnershipTransfer_spec _ _ hexec
      obtain ⟨caller, newOwner, now, hlast, rfl, hopen⟩ := hkept r hr
      obtain ⟨v', hv', rfl⟩ := hopen (hclock.trans hexpires)
      obtain rfl : v' = v := by simpa [htx.before] using hv'.symm
      exact ⟨v', now, hv', hlocked, hlast, hunlocked, hexpires⟩

/-- A request that is accepted after its time lock. -/
theorem accepted_from_initiator_in_time : ∃ w w' : World, Reachable w ∧
    Step w (.call (signedBy [⟨3⟩] 90000) (.ownership (.acceptOwnershipTransfer 1 ⟨3⟩))) w' ∧
      (w.state.vault 1).map (·.status) = some .locked := by
  have hplay : (play (initialised ⟨8⟩ ⟨9⟩)
      [opensVault 100,
        (signedBy [⟨1⟩] 0, .ownership (.initiateOwnershipTransfer 1 ⟨1⟩ ⟨3⟩))]).any
      (fun w => (play w [(signedBy [⟨3⟩] 90000,
        .ownership (.acceptOwnershipTransfer 1 ⟨3⟩))]).isSome) = true := by decide +kernel
  obtain ⟨w, hw, hw'⟩ := (Option.any_eq_true _ _).mp hplay
  obtain ⟨w', hstep⟩ := Option.isSome_iff_exists.mp hw'
  have h₀ : Genesis (initialised ⟨8⟩ ⟨9⟩) := genesis_initialised (by decide) (by decide)
  obtain ⟨v, _, hv, hlocked, -⟩ := @accepted_from_initiator _ _ _ _ 1 _ _ h₀
    (guarded_of_play (by simp [NotOvertaken]) hw) (step_of_play hstep)
  exact ⟨w, w', reachable_of_play hw, step_of_play hstep, by simp [hv, hlocked]⟩

/-- The request of a former owner moves the vault: address 1 asks to hand it over to
address 3, gives it to address 4 at once, and address 3 takes it from address 4. -/
theorem stale_request_accepted : ¬ ∀ (w₀ w w' : World) (ks : List Event) (e : Env) (id : Nat)
    (x : Address), Genesis w₀ → Run Step w₀ ks w →
      Step w (.call e (.ownership (.acceptOwnershipTransfer id x))) w' →
        ∃ v initiatedAt, w.state.vault id = some v ∧
          lastRequest id ks = some (v.owner, x, initiatedAt) := by
  have hplay : (play (initialised ⟨8⟩ ⟨9⟩)
      [opensVault 100,
        (signedBy [⟨1⟩] 0, .ownership (.initiateOwnershipTransfer 1 ⟨1⟩ ⟨3⟩)),
        (signedBy [⟨1⟩] 10, .ownership (.transferOwnership 1 ⟨1⟩ ⟨4⟩))]).any
      (fun w => (play w [(signedBy [⟨3⟩] 90000,
        .ownership (.acceptOwnershipTransfer 1 ⟨3⟩))]).isSome ∧
          (w.state.vault 1).map (·.owner) = some ⟨4⟩) = true := by decide +kernel
  obtain ⟨w, hw, hchecks⟩ := (Option.any_eq_true _ _).mp hplay
  simp only [decide_eq_true_eq] at hchecks
  obtain ⟨w', hstep⟩ := Option.isSome_iff_exists.mp hchecks.1
  intro h
  obtain ⟨v, at₀, hv, hlast⟩ := h _ w w' _ _ 1 ⟨3⟩
    (genesis_initialised (by decide) (by decide))
    (run_of_play hw) (step_of_play hstep)
  have howner : v.owner = ⟨4⟩ := by simpa [hv] using hchecks.2
  simp [lastRequest, eventsOf, List.findSome?_cons, Event.request?, howner] at hlast

/-! ## The payee of a vault that has left the locked state -/

/-- The heir whose share a clawback on vault `id` takes away. -/
def Event.clawback? (id : Nat) : Event → Option Address
  | .call _ (.heir (.clawbackPostRelease i _ heir)) => if i = id then some heir else none
  | _ => none

/-- The clawbacks on vault `id`, newest first. -/
def clawbacks (id : Nat) (ks : List Event) : List Address := ks.filterMap (Event.clawback? id)

/-- The three calls that do not look at the status find vault `id` locked, or change
nothing about its heirs. -/
def PayeeKept (id : Nat) (s : State) (_ : Env) : Call → Prop
  | .heir (.applyBeneficiaryUpdate i _) => i = id → ∀ v p, s.vault id = some v →
      v.status ≠ .locked → s.get (.pendingBeneficiaryUpdate id) = some p →
        p.newBeneficiary = v.beneficiary
  | .heir (.swapAllocations i _ a b) => i = id → ∀ v ia ib, s.vault id = some v →
      v.status ≠ .locked → lastIndex? a v.beneficiaries = some ia →
        lastIndex? b v.beneficiaries = some ib → swapBps v.beneficiaries ia ib = v.beneficiaries
  | .multisig (.executeMultisig i pid _) => i = id → ∀ v p, s.vault id = some v →
      v.status ≠ .locked → s.get (.multiSigProposal id pid) = some p →
        p.operation = .updateBeneficiary → p.addressPayload = some v.beneficiary
  | _ => True

/-- `w` pays the heirs of `v`, less the shares that were clawed back. -/
structure SamePayee (v w : Vault) (clawed : List Address) : Prop where
  unlocked : w.status ≠ .locked
  token : w.tokenAddress = v.tokenAddress
  beneficiary : w.beneficiary = v.beneficiary
  heirs : w.beneficiaries = clawed.foldr zeroAllocation v.beneficiaries

section Payee

variable {e : Env} {s t : State} {c : Call} {id : Nat} {v : Vault}

theorem clawback?_eq_none (h : ∀ a heir, c ≠ .heir (.clawbackPostRelease id a heir)) :
    Event.clawback? id (.call e c) = none := by
  unfold Event.clawback?
  split
  · next heq =>
      obtain ⟨-, rfl⟩ := Event.call.inj heq
      exact if_neg (by rintro rfl; exact h _ _ rfl)
  · rfl

/-- What one call does to the heirs of a vault that is not locked. -/
theorem exec_payee (hnum : s.Numbered) (hv : s.vault id = some v) (hopen : v.status ≠ .locked)
    (hP : PayeeKept id s e c) :
    wp (exec c) (fun _ t => ∃ w, t.vault id = some w ∧
      SamePayee v w (Event.clawback? id (.call e c)).toList) e s := by
  intro _ t hexec
  have hframe : Frame (c.footprint s) s t := exec_frame c hnum _ _ hexec
  obtain ⟨w, hw, hagree⟩ := hframe.kept id v hv
  refine ⟨w, hw, ?_⟩
  have hstatus : w.status ≠ .locked := hagree.status.elim (· ▸ hopen) (·.2)
  -- a call of another vault, whatever it is, changes nothing here
  have hother : id ∉ (c.footprint s).vaults → SamePayee v w [] := by
    intro hid
    obtain rfl : v = w := by simpa [hv] using (hframe.vault_eq hid).symm.trans hw
    exact ⟨hopen, rfl, rfl, rfl⟩
  have hbeneficiary : w.beneficiary = v.beneficiary := by
    by_cases hid : id ∈ (c.footprint s).vaults
    swap
    · exact (hother hid).beneficiary
    by_cases hheir : .beneficiary ∈ (c.footprint s).parts
    · obtain ⟨i, a, rfl⟩ | ⟨i, pid, a, rfl⟩ := Call.beneficiary_writer hheir
      · obtain rfl : id = i := by simpa [Call.footprint, HeirCall.footprint] using hid
        obtain ⟨v', p, htx, _, _, hp, _⟩ := applyBeneficiaryUpdate_spec _ _ hexec
        obtain rfl : v' = v := by simpa [hv] using htx.before.symm
        obtain rfl : v'.withBeneficiary p.newBeneficiary = w := by simpa [hw] using (htx.after id).symm
        exact hP rfl v' p hv hopen hp
      · obtain rfl : id = i := by simpa [Call.footprint, MultisigCall.footprint] using hid
        obtain ⟨v', p, hdone⟩ := executeMultisig_spec _ _ hexec
        obtain rfl : v' = v := by simpa [hv] using hdone.vault.symm
        obtain ⟨w', _, htx, houtcome, -⟩ := hdone.funds
        obtain rfl : w' = w := by simpa [hw] using (htx.after id).symm
        cases hop : p.operation <;> simp only [hop, MultiSigProposal.Outcome] at houtcome
        case updateBeneficiary =>
          obtain ⟨b, hb, _, rfl⟩ := houtcome
          simpa [hb] using hP rfl v' p hv hopen hdone.proposal hop
        all_goals grind [Vault.withBalance, Vault.withOwner, Vault.withStatus,
          Vault.withCheckInInterval, Vault.withLastCheckIn]
    · exact hagree.beneficiary.resolve_left hheir
  refine ⟨hstatus, hagree.token, hbeneficiary, ?_⟩
  by_cases hid : id ∈ (c.footprint s).vaults
  swap
  · rw [clawback?_eq_none (by rintro a heir rfl; simp [Call.footprint, HeirCall.footprint] at hid)]
    exact (hother hid).heirs
  by_cases halloc : .allocations ∈ (c.footprint s).parts
  · obtain ⟨i, a, heir, rfl⟩ | ⟨i, a, x, y, rfl⟩ := Call.allocations_writer halloc
    · obtain rfl : id = i := by simpa [Call.footprint, HeirCall.footprint] using hid
      obtain ⟨v', htx⟩ := clawbackPostRelease_spec _ _ hexec
      obtain rfl : v' = v := by simpa [hv] using htx.before.symm
      obtain rfl : v'.withBeneficiaries _ = w := by simpa [hw] using (htx.after id).symm
      simp [Event.clawback?]
    · obtain rfl : id = i := by simpa [Call.footprint, HeirCall.footprint] using hid
      obtain ⟨v', ia, ib, htx, ha, hb⟩ := swapAllocations_spec _ _ hexec
      obtain rfl : v' = v := by simpa [hv] using htx.before.symm
      obtain rfl : v'.withBeneficiaries _ = w := by simpa [hw] using (htx.after id).symm
      exact hP rfl v' ia ib hv hopen ha hb
  · have hsame : w.beneficiaries = v.beneficiaries :=
      hagree.heirs.resolve_right fun h => h.elim (fun hl => hopen hl.2) halloc
    rw [clawback?_eq_none (by rintro a heir rfl; simp [Call.footprint, HeirCall.footprint] at halloc)]
    exact hsame

theorem clawbacks_cons {k : Event} {ks : List Event} :
    clawbacks id (k :: ks) = (Event.clawback? id k).toList ++ clawbacks id ks := by
  cases h : Event.clawback? id k <;> simp [clawbacks, h]

end Payee

/-- Once vault `id` has left the locked state, its beneficiary and its heirs stay as
they were in every run whose calls meet `PayeeKept`, but for the shares that were
clawed back; a vesting claim pays these heirs. -/
theorem payee_fixed {w w' : World} {ks : List Event} {id : Nat} {v : Vault} (hw : Reachable w)
    (hv : w.state.vault id = some v) (hstatus : v.status ≠ .locked)
    (hrun : Run (Guarded Step (OnCalls (PayeeKept id))) w ks w') :
    ∃ v', w'.state.vault id = some v' ∧ SamePayee v v' (clawbacks id ks) ∧
      ∀ e amount t, claimVestedInstallment id e w'.state = .ok (amount, t) →
        t.ledger = w'.state.ledger.transferAll
          ((v.withBeneficiaries v'.beneficiaries).heirsLog amount) := by
  have hinv : w'.state.Numbered ∧ ∃ v', w'.state.vault id = some v' ∧
      SamePayee v v' (clawbacks id ks) := by
    refine hrun.invariantHistory (I := fun ks w => w.state.Numbered ∧
      ∃ v', w.state.vault id = some v' ∧ SamePayee v v' (clawbacks id ks))
      ⟨hw.numbered, v, hv, hstatus, rfl, rfl, rfl⟩ ?_
    rintro ks u k u' ⟨hnum, x, hx, hsame⟩ ⟨hstep, hP⟩
    refine ⟨hstep.numbered hnum, ?_⟩
    cases hstep with
    | call _ hexec =>
        obtain ⟨y, hy, hone⟩ := exec_payee hnum hx hsame.unlocked hP _ _ hexec
        refine ⟨y, hy, hone.unlocked, hone.token.trans hsame.token,
          hone.beneficiary.trans hsame.beneficiary, ?_⟩
        rw [clawbacks_cons, List.foldr_append, ← hsame.heirs]
        exact hone.heirs
    | tokens _ _ => exact ⟨x, hx, hsame⟩
  obtain ⟨-, v', hv', hsame⟩ := hinv
  refine ⟨v', hv', hsame, fun e amount t hclaim => ?_⟩
  obtain ⟨u, hclaims⟩ := claimVestedInstallment_spec _ _ hclaim
  obtain rfl : u = v' := by simpa [hv'] using hclaims.transacts.before.symm
  rw [hclaims.transacts.ledger, Vault.heirsLog, Vault.heirsLog]
  simp [hsame.token, hsame.beneficiary]

/-- A released vault after more calls. -/
theorem payee_fixed_after_release : ∃ w w' : World, Reachable w ∧
    (w.state.vault 1).map (·.status) = some .released ∧
      (w'.state.vault 1).map (·.beneficiary) = some ⟨2⟩ := by
  have hplay : (play (initialised ⟨8⟩ ⟨9⟩)
      [opensVault 100, paysIn 50,
        (signedBy [⟨7⟩] 90000, .release (.triggerRelease 1))]).any
      (fun w => (w.state.vault 1).any (fun v => v.status = .released ∧ v.beneficiary = ⟨2⟩) ∧
        (play w [(signedBy [⟨1⟩] 90001, .vault (.createVault ⟨1⟩ ⟨2⟩ 100 none)),
          (signedBy [⟨1⟩] 90002, .heir (.markBeneficiaryReleased 1 ⟨1⟩ ⟨2⟩))]).isSome) =
        true := by decide +kernel
  obtain ⟨w, hw, hchecks⟩ := (Option.any_eq_true _ _).mp hplay
  simp only [decide_eq_true_eq] at hchecks
  obtain ⟨hv, hlater⟩ := hchecks
  obtain ⟨v, hv, hreleased, hheir⟩ : ∃ v, w.state.vault 1 = some v ∧ v.status = .released ∧
      v.beneficiary = ⟨2⟩ := by simpa [Option.any_eq_true] using hv
  obtain ⟨w', hw'⟩ := Option.isSome_iff_exists.mp hlater
  have hreach : Reachable w := reachable_of_play hw
  obtain ⟨v', hv', hsame, -⟩ := payee_fixed hreach hv (by simp [hreleased])
    (guarded_of_play (by simp [PayeeKept]) hw')
  exact ⟨w, w', hreach, by simp [hv, hreleased], by simp [hv', hsame.beneficiary, hheir]⟩

/-- A beneficiary update asked for while the vault was locked is applied after its release. -/
theorem payee_changed_after_release : ¬ ∀ (w w' : World) (e : Env) (c : Call) (id : Nat)
    (v v' : Vault), Reachable w → w.state.vault id = some v → v.status = .released →
      Step w (.call e c) w' → w'.state.vault id = some v' → v'.beneficiary = v.beneficiary := by
  have hplay : (play (initialised ⟨8⟩ ⟨9⟩)
      [opensVault 100, paysIn 50,
        (signedBy [⟨1⟩] 1, .heir (.updateBeneficiary 1 ⟨1⟩ ⟨3⟩)),
        (signedBy [⟨7⟩] 90000, .release (.triggerRelease 1))]).any
      (fun w => (w.state.vault 1).any (fun v => v.status = .released ∧ v.beneficiary = ⟨2⟩) ∧
        (play w [(signedBy [⟨1⟩] 90000, .heir (.applyBeneficiaryUpdate 1 ⟨1⟩))]).any
          (fun w' => (w'.state.vault 1).any fun v => v.beneficiary = ⟨3⟩)) = true := by
    decide +kernel
  obtain ⟨w, hw, hchecks⟩ := (Option.any_eq_true _ _).mp hplay
  simp only [decide_eq_true_eq] at hchecks
  obtain ⟨v, hv, hreleased, hheir⟩ : ∃ v, w.state.vault 1 = some v ∧ v.status = .released ∧
      v.beneficiary = ⟨2⟩ := by simpa [Option.any_eq_true] using hchecks.1
  obtain ⟨w', hstep, hafter⟩ := (Option.any_eq_true _ _).mp hchecks.2
  obtain ⟨v', hv', hheir'⟩ : ∃ v, w'.state.vault 1 = some v ∧ v.beneficiary = ⟨3⟩ := by
    simpa [Option.any_eq_true] using hafter
  intro h
  have hsame := h w w' _ _ 1 v v' (reachable_of_play hw) hv hreleased (step_of_play hstep) hv'
  simp [hheir, hheir'] at hsame

end Heirloom
