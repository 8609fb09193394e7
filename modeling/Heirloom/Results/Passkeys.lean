import Heirloom.System

/-!
# Who registers passkeys

A check-in has to present a passkey that is registered for the vault. Two things
are shown of every run that keeps to a condition which the code does not check.

* `passkeys_enter_by_owner`: a passkey that was refused is accepted only after a
  call that the owner signed, that presented the recovery code, or that was an
  approval by a contact of the owner's. The condition: recoveries are started
  with the owner's signature. Anybody can start one (`stranger_registers_passkey`).
* `passkey_protection_stays`: once a passkey is registered, a hash that is not
  registered is refused. The condition: the last passkey is not removed. After
  that every hash is accepted (`last_passkey_removed`).
-/

namespace Heirloom

open Transaction Runs

/-- The registered passkeys of vault `id`. -/
def State.keyring (s : State) (id : Nat) : List PasskeyHash := (s.get (.vaultPasskeys id)).getD []

/-- The hash is accepted as registered, by the list of passkeys or, where the list is empty, by the
vault's own field. Where nothing is registered, any hash is. -/
def State.Registered (s : State) (id : Nat) (v : Vault) (hash : Bytes32) : Prop :=
  PasskeyRegistered (s.keyring id) v.passkeyHash hash

section Keys

variable {e : Env} {s t : State} {id now : Nat} {v w : Vault} {hash : Bytes32} {c : Call}
  {ks : List Event} {a : Address}

/-! ## What a check-in looks at -/

/-- A check-in accepts a passkey that is registered, not reported, not in escrow and not
expired. -/
theorem ok_validatePasskey {u : Unit} :
    validatePasskeyForCheckin id v hash now e s = .ok (u, t) ↔
      s.Registered id v hash ∧ hash ∉ (s.get (.compromisedPasskeys id)).getD [] ∧
        s.get (.passkeyEscrow id hash) = none ∧
        (∀ expiry, s.get (.passkeyExpiry id hash) = some expiry → now ≤ expiry) ∧ s = t := by
  simp only [validatePasskeyForCheckin, Tx.ok_bind, ok_storageGet, ok_require, Tx.ok_ifSome]
  constructor
  · rintro ⟨_, _, ⟨rfl, rfl⟩, _, _, ⟨hreg, rfl⟩, _, _, ⟨rfl, rfl⟩, _, _, ⟨hsafe, rfl⟩, _, _,
      ⟨rfl, rfl⟩, _, _, ⟨hfree, rfl⟩, _, _, ⟨rfl, rfl⟩, hexpiry⟩
    refine ⟨hreg, hsafe, by simpa using hfree, ?_⟩
    obtain ⟨expiry, hset, hvalid, rfl⟩ | ⟨hunset, rfl⟩ := hexpiry
    · exact ⟨fun x hx => Option.some.inj (hset.symm.trans hx) ▸ hvalid, rfl⟩
    · exact ⟨fun x hx => by simp [hunset] at hx, rfl⟩
  · rintro ⟨hreg, hsafe, hfree, hexpiry, rfl⟩
    refine ⟨_, _, ⟨rfl, rfl⟩, (), _, ⟨hreg, rfl⟩, _, _, ⟨rfl, rfl⟩, (), _, ⟨hsafe, rfl⟩, _, _,
      ⟨rfl, rfl⟩, (), _, ⟨by simp [hfree], rfl⟩, _, _, ⟨rfl, rfl⟩, ?_⟩
    cases hset : s.get (.passkeyExpiry id hash) with
    | none => exact .inr ⟨rfl, rfl⟩
    | some expiry => exact .inl ⟨expiry, rfl, hexpiry expiry hset, rfl⟩

theorem validatePasskey_invalid
    (h : validatePasskeyForCheckin id v hash now e s = .error (.error .invalidPasskey)) :
    ¬ s.Registered id v hash := by
  intro hreg
  have hreg' : PasskeyRegistered ((s.get (.vaultPasskeys id)).getD []) v.passkeyHash hash := hreg
  simp [validatePasskeyForCheckin, hreg'] at h

/-! ## Who changes the registered passkeys -/

/-- The calls that change what is registered. -/
theorem Call.keys_writer
    (h : .keyring ∈ (c.footprint s).areas ∨ .passkey ∈ (c.footprint s).parts) :
    c.Creating ∨ ∃ o, c = .passkey o := by
  cases c with
  | vault c =>
      cases c <;> first
        | exact .inl trivial
        | simp [Call.footprint, VaultCall.footprint] at h
  | passkey c => exact .inr ⟨c, rfl⟩
  | _ => simpa [Call.areas, Call.parts] using h.imp Call.mem_areas Call.mem_parts

/-- A call outside vault `id` or its keys leaves what is registered as it was. -/
theorem registered_of_frame {f : Footprint} (h : Frame f s t) (hv : s.vault id = some v)
    (hw : t.vault id = some w)
    (hout : id ∉ f.vaults ∨ (.keyring ∉ f.areas ∧ .passkey ∉ f.parts)) :
    t.keyring id = s.keyring id ∧ w.passkeyHash = v.passkeyHash := by
  obtain hid | ⟨harea, hpart⟩ := hout
  · obtain rfl := Option.some.inj (hw.symm.trans ((h.vault_eq hid).trans hv))
    exact ⟨by simp [State.keyring, h.get_of_vault (k := .vaultPasskeys id) rfl hid], rfl⟩
  · obtain ⟨w', hw', hagree⟩ := h.kept id v hv
    obtain rfl := Option.some.inj (hw.symm.trans hw')
    exact ⟨by simp [State.keyring, h.get_of_area (k := .vaultPasskeys id) (by simpa using harea)],
      hagree.passkey.resolve_left hpart⟩

/-- The call presents the recovery code of vault `id`: the hash of what it presents is the stored
one. -/
def Call.PresentsCode (e : Env) (s : State) (id : Nat) (c : Call) : Prop :=
  ∃ code hash, c = .passkey (.recoverWithCode id code hash) ∧
    s.get (.recoveryCodeHash id) = some (e.sha256 code)

/-- The call is the approval of a recovery of vault `id` by one of its contacts. -/
def Call.ApprovedBy (e : Env) (s : State) (id : Nat) (contact : Address) (c : Call) : Prop :=
  c = .passkey (.approvePasskeyRecovery id contact) ∧ e.authorized contact = true ∧
    (∃ request, s.get (.passkeyRecoveryRequest id) = some request) ∧
      ∃ contacts, s.get (.recoveryContacts id) = some contacts ∧ contact ∈ contacts

/-- Whoever changes the keys of vault `id` is the owner, knows the recovery code, or is a
contact who approves a recovery. -/
theorem execPasskey_authority {o : PasskeyCall} (hv : s.vault id = some v)
    (hid : id ∈ o.footprint.vaults) (hkeys : .keyring ∈ o.footprint.areas ∨
      .passkey ∈ o.footprint.parts) :
    wp (execPasskey o) (fun _ _ => e.authorized v.owner = true ∨ (Call.passkey o).PresentsCode e s id ∨
      ∃ contact, (Call.passkey o).ApprovedBy e s id contact) e s := by
  have howned : ∀ {f : Vault → Contract Unit} {a : Address},
      wp (loadLockedByOwner id a >>= f) (fun _ _ => e.authorized v.owner = true ∨
        (Call.passkey o).PresentsCode e s id ∨
          ∃ contact, (Call.passkey o).ApprovedBy e s id contact) e s := by
    intro f a
    simp only [Tx.wp_bind, wp_loadLockedByOwner]
    intro hauth v' hv' howner _ _ _ _
    obtain rfl := Option.some.inj (hv.symm.trans hv')
    exact Or.inl (howner ▸ hauth)
  cases o with
  | rotatePasskey i a old new =>
      obtain rfl : id = i := by simpa [PasskeyCall.footprint] using hid
      exact howned
  | addPasskey i a h =>
      obtain rfl : id = i := by simpa [PasskeyCall.footprint] using hid
      exact howned
  | bindPasskeyBiometric i a h b =>
      obtain rfl : id = i := by simpa [PasskeyCall.footprint] using hid
      exact howned
  | unbindPasskeyBiometric i a h =>
      obtain rfl : id = i := by simpa [PasskeyCall.footprint] using hid
      exact howned
  | removePasskey i a h =>
      obtain rfl : id = i := by simpa [PasskeyCall.footprint] using hid
      exact howned
  | approvePasskeyRecovery i a =>
      obtain rfl : id = i := by simpa [PasskeyCall.footprint] using hid
      simp only [execPasskey, approvePasskeyRecovery, Tx.wp_bind, wp_requireAuth, wp_storageGet,
        Tx.wp_fromSome, wp_require]
      intro hauth contacts hcontacts hmem request hrequest _ _ _ _
      exact .inr (.inr ⟨a, rfl, hauth, ⟨request, hrequest⟩, contacts, hcontacts, hmem⟩)
  | recoverWithCode i code h =>
      obtain rfl : id = i := by simpa [PasskeyCall.footprint] using hid
      simp only [execPasskey, recoverWithCode, Tx.wp_bind, wp_loadVault, wp_require, wp_storageGet,
        Tx.wp_fromSome, Tx.wp_ask, wp_timestamp, wp_storageSet, wp_saveVault, wp_storageRemove]
      exact fun _ _ _ stored hstored hmatch => .inr (.inl ⟨code, h, rfl, hmatch ▸ hstored⟩)
  | _ => simp [PasskeyCall.footprint] at hkeys

/-- A vault that is there is not the one that is created. -/
theorem not_mem_creation (hnum : s.Numbered) (hv : s.vault id = some v) :
    id ∉ s.creation.vaults := by
  intro hmem
  obtain rfl : id = s.count + 1 := by simpa [State.creation] using hmem
  simp [hnum _ (Nat.lt_succ_self _)] at hv

/-- What is registered for a vault changes only with authority. -/
theorem registered_change (hnum : s.Numbered) (hexec : exec c e s = .ok ((), t))
    (hv : s.vault id = some v) (hw : t.vault id = some w) (hbefore : ¬ s.Registered id v hash)
    (hafter : t.Registered id w hash) :
    e.authorized v.owner = true ∨ c.PresentsCode e s id ∨ ∃ contact, c.ApprovedBy e s id contact := by
  have hframe : Frame (c.footprint s) s t := exec_frame c hnum _ _ hexec
  have hin : id ∈ (c.footprint s).vaults ∧
      (.keyring ∈ (c.footprint s).areas ∨ .passkey ∈ (c.footprint s).parts) := by
    by_contra hout
    obtain ⟨hkeys, hprimary⟩ := registered_of_frame hframe hv hw (by
      by_cases hid : id ∈ (c.footprint s).vaults
      · exact .inr (not_or.mp fun hkeys => hout ⟨hid, hkeys⟩)
      · exact .inl hid)
    rw [State.Registered, hkeys, hprimary] at hafter
    exact hbefore hafter
  obtain hc | ⟨o, rfl⟩ := Call.keys_writer hin.2
  · obtain ⟨_, hcreates⟩ := exec_creates hc _ _ hexec
    obtain ⟨hkeys, hprimary⟩ := registered_of_frame (hcreates.frame hnum) hv hw
      (.inl (not_mem_creation hnum hv))
    rw [State.Registered, hkeys, hprimary] at hafter
    exact absurd hafter hbefore
  · exact execPasskey_authority hv hin.1 hin.2 _ _ hexec

/-! ## Contacts of the owner -/

/-- The owner has named the contact in a recovery that he has started with his own authorisation. -/
def DesignatedBy (owner : Address) (id : Nat) (contact : Address) (ks : List Event) : Prop :=
  ∃ e hash code contacts required,
    .call e (.passkey (.initiatePasskeyRecovery id hash code contacts required)) ∈ ks ∧
      contact ∈ contacts ∧ e.authorized owner = true

/-- A recovery is started with the signature of the vault's owner, and the vault does not
change hands while one is pending. -/
def RecoveriesOwned (s : State) (e : Env) : Call → Prop
  | .passkey (.initiatePasskeyRecovery id _ _ _ _) =>
      ∃ v, s.vault id = some v ∧ e.authorized v.owner = true
  | .ownership (.transferOwnership id _ _) | .ownership (.acceptOwnershipTransfer id _) =>
      s.get (.passkeyRecoveryRequest id) = none
  | .multisig (.executeMultisig id pid _) =>
      ∀ p, s.get (.multiSigProposal id pid) = some p → p.operation = .transferOwnership →
        s.get (.passkeyRecoveryRequest id) = none
  | _ => True

/-- The contacts of every pending recovery were named by the owner that the vault has now. -/
def ContactsDesignated (ks : List Event) (s : State) : Prop :=
  ∀ id request, s.get (.passkeyRecoveryRequest id) = some request →
    ∃ v contacts, s.vault id = some v ∧ s.get (.recoveryContacts id) = some contacts ∧
      ∀ contact ∈ contacts, DesignatedBy v.owner id contact ks

theorem DesignatedBy.later {k : Event} (h : DesignatedBy a id b ks) : DesignatedBy a id b (k :: ks) := by
  obtain ⟨e, hash, code, contacts, required, hmem, hrest⟩ := h
  exact ⟨e, hash, code, contacts, required, .tail _ hmem, hrest⟩

/-- The calls that write recoveries. -/
theorem Call.recovery_writer (h : .recovery ∈ (c.footprint s).areas) :
    (∃ id hash code contacts required,
      c = .passkey (.initiatePasskeyRecovery id hash code contacts required)) ∨
    ∃ id contact, c = .passkey (.approvePasskeyRecovery id contact) := by
  cases c with
  | passkey c => cases c <;> simp [Call.footprint, PasskeyCall.footprint] at h ⊢
  | _ => simpa [Call.areas] using Call.mem_areas h

/-- A vault with a pending recovery keeps its owner. -/
theorem owner_kept_pending (hguard : RecoveriesOwned s e c) (hframe : Frame (c.footprint s) s t)
    (hexec : exec c e s = .ok ((), t)) (hv : s.vault id = some v) (hw : t.vault id = some w)
    {request : PasskeyRecoveryRequest} (hrequest : s.get (.passkeyRecoveryRequest id) = some request) :
    w.owner = v.owner := by
  obtain ⟨w', hw', hagree⟩ := hframe.kept id v hv
  obtain rfl := Option.some.inj (hw.symm.trans hw')
  by_cases hid : id ∈ (c.footprint s).vaults
  swap
  · obtain rfl := Option.some.inj (hw.symm.trans ((hframe.vault_eq hid).trans hv))
    rfl
  by_cases howner : .owner ∈ (c.footprint s).parts
  swap
  · exact hagree.owner.resolve_left howner
  obtain ⟨i, x, y, rfl⟩ | ⟨i, x, rfl⟩ | ⟨i, p, x, rfl⟩ := Call.owner_writer howner
  · obtain rfl : id = i := by simpa [Call.footprint, OwnershipCall.footprint] using hid
    simp [RecoveriesOwned, hrequest] at hguard
  · obtain rfl : id = i := by simpa [Call.footprint, OwnershipCall.footprint] using hid
    simp [RecoveriesOwned, hrequest] at hguard
  · obtain rfl : id = i := by simpa [Call.footprint, MultisigCall.footprint] using hid
    obtain ⟨v', q, hx⟩ := executeMultisig_spec _ _ hexec
    obtain ⟨w', hw', hagree⟩ := hx.frame.kept id v hv
    obtain rfl := Option.some.inj (hw.symm.trans hw')
    refine hagree.owner.resolve_left fun hpart => ?_
    have hop : q.operation = .transferOwnership := by
      cases hop : q.operation <;> simp [hop, MultiSigOperation.parts] at hpart ⊢
    simp [hguard q hx.proposal hop] at hrequest

/-- One call keeps the contacts of pending recoveries the owner's. -/
theorem contacts_call (h : ContactsDesignated ks s) (hnum : s.Numbered)
    (hguard : RecoveriesOwned s e c) (hexec : exec c e s = .ok ((), t)) :
    ContactsDesignated (.call e c :: ks) t := by
  have hframe : Frame (c.footprint s) s t := exec_frame c hnum _ _ hexec
  have hkept : ∀ {i : Nat} {request : PasskeyRecoveryRequest},
      s.get (.passkeyRecoveryRequest i) = some request →
      t.get (.recoveryContacts i) = s.get (.recoveryContacts i) →
      ∃ v contacts, t.vault i = some v ∧ t.get (.recoveryContacts i) = some contacts ∧
        ∀ contact ∈ contacts, DesignatedBy v.owner i contact (.call e c :: ks) := by
    intro i request hrequest hcontacts
    obtain ⟨v, contacts, hv, hc, hall⟩ := h i request hrequest
    obtain ⟨w, hw, -⟩ := hframe.kept i v hv
    refine ⟨w, contacts, hw, hcontacts.trans hc, fun contact hmem => ?_⟩
    rw [owner_kept_pending hguard hframe hexec hv hw hrequest]
    exact (hall contact hmem).later
  intro i request hrequest
  by_cases hout : .recovery ∉ (c.footprint s).areas ∨ i ∉ (c.footprint s).vaults
  · have hsame : ∀ k : DataKey, k.area = .recovery → k.vaultId? = some i → t.get k = s.get k := by
      intro k harea hvid
      obtain hno | hno := hout
      · exact hframe.get_of_area (by simpa [harea] using hno)
      · exact hframe.get_of_vault hvid hno
    exact hkept ((hsame (.passkeyRecoveryRequest i) rfl rfl).symm.trans hrequest)
      (hsame (.recoveryContacts i) rfl rfl)
  · obtain ⟨harea, hid⟩ := not_or.mp hout
    obtain ⟨j, hash, code, contacts, required, rfl⟩ | ⟨j, contact, rfl⟩ :=
      Call.recovery_writer (not_not.mp harea)
    · obtain rfl : i = j := by
        simpa [Call.footprint, PasskeyCall.footprint] using not_not.mp hid
      obtain ⟨v, hv, hauth⟩ := hguard
      have hset : wp (initiatePasskeyRecovery i hash code contacts required) (fun _ t =>
          t.vault i = s.vault i ∧ t.get (.recoveryContacts i) = some contacts) e s := by
        simp [initiatePasskeyRecovery]
      obtain ⟨hvault, hcontacts⟩ := hset _ _ hexec
      exact ⟨v, contacts, hvault.trans hv, hcontacts, fun contact hmem =>
        ⟨e, hash, code, contacts, required, .head _, hmem, hauth⟩⟩
    · obtain rfl : i = j := by
        simpa [Call.footprint, PasskeyCall.footprint] using not_not.mp hid
      have hset : wp (approvePasskeyRecovery i contact) (fun _ t =>
          (∃ request, s.get (.passkeyRecoveryRequest i) = some request) ∧
            t.get (.recoveryContacts i) = s.get (.recoveryContacts i)) e s := by
        simp [approvePasskeyRecovery, completePasskeyRecovery]
        intro _ _ _ _ request hpending _
        exact ⟨fun _ => ⟨request, hpending⟩, fun _ => ⟨request, hpending⟩⟩
      obtain ⟨⟨request', hpending⟩, hcontacts⟩ := hset _ _ hexec
      exact hkept hpending hcontacts

end Keys

/-- In every run in which recoveries are started with the owner's signature and no vault
changes hands while one is pending: a call after which a passkey is accepted that was
refused before is signed by the owner, presents the recovery code of the vault, or is an
approval by a contact that the owner has named. -/
theorem passkeys_enter_by_owner {w₀ w w' : World} {ks : List Event} {e : Env} {c : Call}
    (h₀ : Genesis w₀) (hrun : Run (Guarded Step (OnCalls RecoveriesOwned)) w₀ ks w)
    (hstep : Step w (.call e c) w') (id : Nat) (v v' : Vault) (hash : Bytes32)
    (hv : w.state.vault id = some v) (hv' : w'.state.vault id = some v')
    (hbefore : ∃ now e, validatePasskeyForCheckin id v hash now e w.state =
      .error (.error .invalidPasskey))
    (hafter : ∃ now e t, validatePasskeyForCheckin id v' hash now e w'.state = .ok ((), t)) :
    e.authorized v.owner = true ∨ c.PresentsCode e w.state id ∨
      ∃ contact, c.ApprovedBy e w.state id contact ∧ DesignatedBy v.owner id contact ks := by
  have hcontacts : ContactsDesignated ks w.state := by
    refine history_of_calls (I := fun ks w => ContactsDesignated ks w.state) h₀ hrun ?_
      (fun hnum hI hguard _ hexec => contacts_call hI hnum hguard hexec) fun l hI id request hr => ?_
    · intro id request hrequest
      simp [h₀.get (k := .passkeyRecoveryRequest id) (by simp)] at hrequest
    · obtain ⟨v, contacts, hv, hc, hall⟩ := hI id request hr
      exact ⟨v, contacts, hv, hc, fun contact hmem => (hall contact hmem).later⟩
  obtain ⟨_, _, hinvalid⟩ := hbefore
  obtain ⟨_, _, _, hvalid⟩ := hafter
  cases hstep with
  | call _ hexec =>
      obtain howner | hcode | ⟨contact, happroved⟩ := registered_change
        (numbered_of_run hrun.unguard h₀) hexec hv hv' (validatePasskey_invalid hinvalid)
        (ok_validatePasskey.mp hvalid).1
      · exact .inl howner
      · exact .inr (.inl hcode)
      · obtain ⟨hcall, hauth, ⟨request, hrequest⟩, contacts, hc, hmem⟩ := happroved
        obtain ⟨v₁, contacts', hv₁, hc', hall⟩ := hcontacts _ request hrequest
        obtain rfl := Option.some.inj (hv.symm.trans hv₁)
        obtain rfl := Option.some.inj (hc.symm.trans hc')
        exact .inr (.inr ⟨contact, ⟨hcall, hauth, ⟨request, hrequest⟩, contacts, hc, hmem⟩,
          hall contact hmem⟩)

/-- A contact that the owner has named approves the recovery that the owner has started. -/
theorem passkeys_enter_by_owner_approved : ∃ w w' : World, ∃ ks v,
    Reachable w ∧ w.state.vault 1 = some v ∧ v.owner = ⟨1⟩ ∧
      Step w (.call (signedBy [⟨5⟩] 0) (.passkey (.approvePasskeyRecovery 1 ⟨5⟩))) w' ∧
        ((signedBy [⟨5⟩] 0).authorized v.owner = true ∨
          (Call.passkey (.approvePasskeyRecovery 1 ⟨5⟩)).PresentsCode (signedBy [⟨5⟩] 0) w.state 1 ∨
          ∃ contact, (Call.passkey (.approvePasskeyRecovery 1 ⟨5⟩)).ApprovedBy (signedBy [⟨5⟩] 0)
            w.state 1 contact ∧ DesignatedBy v.owner 1 contact ks) := by
  have hplay : (play (initialised ⟨8⟩ ⟨9⟩)
      [opensVault 100,
        (signedBy [⟨1⟩] 0, .passkey (.addPasskey 1 ⟨1⟩ (Vector.replicate 32 1)))]).any (fun w₁ =>
      (play w₁ [(signedBy [⟨1⟩] 0,
        .passkey (.initiatePasskeyRecovery 1 (Vector.replicate 32 2) "" [⟨5⟩] 1))]).any fun w =>
      (play w [(signedBy [⟨5⟩] 0, .passkey (.approvePasskeyRecovery 1 ⟨5⟩))]).any fun w' =>
        (w₁.state.vault 1).any (fun v => v.owner = ⟨1⟩) &&
        (w.state.vault 1).any (fun v => decide (v.owner = ⟨1⟩) && failedWith .invalidPasskey
          (validatePasskeyForCheckin 1 v (Vector.replicate 32 2) 0 (signedBy [] 0) w.state)) &&
        (w'.state.vault 1).any fun v => succeeded
          (validatePasskeyForCheckin 1 v (Vector.replicate 32 2) 0 (signedBy [] 0) w'.state)) = true := by
    decide +kernel
  obtain ⟨w₁, hw₁, hplay⟩ := (Option.any_eq_true _ _).mp hplay
  obtain ⟨w, hw, hplay⟩ := (Option.any_eq_true _ _).mp hplay
  obtain ⟨w', hw', hchecks⟩ := (Option.any_eq_true _ _).mp hplay
  simp only [Bool.and_eq_true, Option.any_eq_true, decide_eq_true_eq] at hchecks
  obtain ⟨⟨⟨v₁, hv₁, howner₁⟩, v, hv, howner, hbefore⟩, v', hv', hafter⟩ := hchecks
  have h₀ : Genesis (initialised ⟨8⟩ ⟨9⟩) := genesis_initialised (by decide) (by decide)
  have hsigned : RecoveriesOwned w₁.state (signedBy [⟨1⟩] 0)
      (.passkey (.initiatePasskeyRecovery 1 (Vector.replicate 32 2) "" [⟨5⟩] 1)) :=
    ⟨v₁, hv₁, by rw [howner₁]; decide⟩
  have hrun := Run.next (guarded_of_play (P := RecoveriesOwned) (by simp [RecoveriesOwned]) hw₁)
    (guarded_step_of_play (P := RecoveriesOwned) hsigned hw)
  obtain ⟨_, t, hvalid⟩ := ok_of_succeeded hafter
  exact ⟨w, w', _, v, ⟨_, _, h₀, hrun.unguard⟩, hv, howner, step_of_play hw',
    passkeys_enter_by_owner h₀ hrun (step_of_play hw') 1 v v' (Vector.replicate 32 2) hv hv'
      ⟨0, signedBy [] 0, error_of_failedWith hbefore⟩ ⟨0, signedBy [] 0, t, hvalid⟩⟩

/-- A stranger starts a recovery, names himself as the only contact and approves it. -/
theorem stranger_registers_passkey : ¬ ∀ (w₀ w w' : World) (ks : List Event) (e : Env) (c : Call)
    (id : Nat) (v v' : Vault) (hash : Bytes32), Genesis w₀ → Run Step w₀ ks w →
    Step w (.call e c) w' → w.state.vault id = some v → w'.state.vault id = some v' →
    (∃ now e, validatePasskeyForCheckin id v hash now e w.state =
      .error (.error .invalidPasskey)) →
    (∃ now e t, validatePasskeyForCheckin id v' hash now e w'.state = .ok ((), t)) →
    e.authorized v.owner = true ∨ c.PresentsCode e w.state id ∨
      ∃ contact, c.ApprovedBy e w.state id contact ∧ DesignatedBy v.owner id contact ks := by
  have hplay : (play (initialised ⟨8⟩ ⟨9⟩)
      [opensVault 100,
        (signedBy [⟨1⟩] 0, .passkey (.addPasskey 1 ⟨1⟩ (Vector.replicate 32 1))),
        (signedBy [⟨5⟩] 0,
          .passkey (.initiatePasskeyRecovery 1 (Vector.replicate 32 2) "" [⟨5⟩] 1))]).any (fun w =>
      (play w [(signedBy [⟨5⟩] 0, .passkey (.approvePasskeyRecovery 1 ⟨5⟩))]).any fun w' =>
        (w.state.vault 1).any (fun v => decide (v.owner = ⟨1⟩) && failedWith .invalidPasskey
          (validatePasskeyForCheckin 1 v (Vector.replicate 32 2) 0 (signedBy [] 0) w.state)) &&
        (w'.state.vault 1).any fun v => succeeded
          (validatePasskeyForCheckin 1 v (Vector.replicate 32 2) 0 (signedBy [] 0) w'.state)) = true := by
    decide +kernel
  obtain ⟨w, hw, hplay⟩ := (Option.any_eq_true _ _).mp hplay
  obtain ⟨w', hw', hchecks⟩ := (Option.any_eq_true _ _).mp hplay
  simp only [Bool.and_eq_true, Option.any_eq_true, decide_eq_true_eq] at hchecks
  obtain ⟨⟨v, hv, howner, hbefore⟩, v', hv', hafter⟩ := hchecks
  obtain ⟨_, t, hvalid⟩ := ok_of_succeeded hafter
  intro h
  obtain hsigned | ⟨_, _, hcode, -⟩ | ⟨contact, -, e, _, _, _, _, hmem, -, hsigned⟩ :=
    h _ w w' _ _ _ 1 v v' (Vector.replicate 32 2) (genesis_initialised (by decide) (by decide))
      (run_of_play hw) (step_of_play hw') hv hv' ⟨0, signedBy [] 0, error_of_failedWith hbefore⟩
      ⟨0, signedBy [] 0, t, hvalid⟩
  · rw [howner] at hsigned
    exact absurd hsigned (by decide)
  · cases hcode
  · obtain ⟨hsigner, -⟩ : e = signedBy [⟨5⟩] 0 ∧ _ := by simpa [eventsOf] using hmem
    rw [hsigner, howner] at hsigned
    exact absurd hsigned (by decide)

/-! ## Protection by passkeys -/

/-- The passkey that is removed is not the last one: the list of the vault has another, with a
different hash. -/
def KeyringKept (s : State) (_ : Env) : Call → Prop
  | .passkey (.removePasskey id _ hash) => ∃ p ∈ s.keyring id, p.hash ≠ hash
  | _ => True

/-- The check-in presents a passkey for vault `id`: its hash is the one given. -/
def CheckInCall.Presents (id : Nat) (hash : Bytes32) : CheckInCall → Prop
  | .checkIn i _ h _ | .checkInWithGeo i _ h | .checkInWithPow i _ h _ _
  | .biometricCheckIn i _ h _ => i = id ∧ h = hash
  | .batchCheckInV2 is _ h => id ∈ is ∧ h = hash
  | _ => False

section Protection

variable {e : Env} {s t : State} {id : Nat} {v w : Vault} {hash : Bytes32} {c : Call}
  {ks : List Event}

theorem mem_of_registered (hkeys : s.keyring id ≠ []) (h : s.Registered id v hash) :
    ∃ p ∈ s.keyring id, p.hash = hash := by
  unfold State.Registered PasskeyRegistered at h
  rwa [if_pos hkeys] at h

/-- What a check-in has found out about the vault and the passkey it was given. -/
structure State.Accepts (s : State) (e : Env) (id : Nat) (hash : Bytes32) (v : Vault) : Prop where
  vault : s.vault id = some v
  unpaused : v.isPaused = false
  valid : validatePasskeyForCheckin id v hash e.timestamp e s = .ok ((), s)

/-- The nonce of a delegate is of no concern to the passkey. -/
theorem validatePasskey_put_nonce {now n : Nat} {a : Address} {u : Unit}
    (h : validatePasskeyForCheckin id v hash now e (s.put (.delegateNonce id a) n) = .ok (u, t)) :
    validatePasskeyForCheckin id v hash now e s = .ok ((), s) := by
  obtain ⟨hreg, hsafe, hfree, hexpiry, -⟩ := ok_validatePasskey.mp h
  refine ok_validatePasskey.mpr ⟨?_, by simpa using hsafe, by simpa using hfree,
    by simpa using hexpiry, rfl⟩
  simpa [State.Registered, State.keyring] using hreg

theorem checkIn_accepts {a : Address} {nonce : Nat} :
    wp (checkIn id a hash nonce) (fun _ _ => ∃ v, s.Accepts e id hash v) e s := by
  refine Tx.wp_bind_of_first ?_
  simp only [prepareCheckIn, Tx.wp_bind, wp_loadPaused, wp_require, wp_requireAuth, wp_loadVault,
    wp_isCheckInDelegate, wp_isValidPasskeyDelegate, Tx.wp_onlyIf, wp_timestamp, wp_assertCooldown,
    wp_validatePasskeyForCheckin, wp_applyRotation, Tx.wp_pure]
  intro _ _ v hv hunpaused _
  refine ⟨fun _ => ?_, fun _ => ?_⟩
  · simp only [spendDelegateNonce, Tx.wp_bind, wp_storageGet, wp_require, wp_u64, wp_storageSet]
    intro _ _ _ _ _ _ hvalid _ _ _
    exact ⟨v, hv, hunpaused, validatePasskey_put_nonce hvalid⟩
  · intro _ _ _ _ hvalid _ _ _
    exact ⟨v, hv, hunpaused, hvalid⟩

theorem batchCheckInV2_accepts {ids : List Nat} {a : Address} (hid : id ∈ ids) :
    wp (batchCheckInV2 ids a hash) (fun _ _ => ∃ v, s.Accepts e id hash v) e s := by
  simp only [batchCheckInV2, Tx.wp_bind, wp_loadPaused, wp_require, wp_requireAuth, wp_timestamp]
  intro _ _
  rw [← Tx.wp_bind]
  refine Tx.wp_bind_of_first ?_
  induction ids with
  | nil => cases hid
  | cons i is ih =>
      simp [forEach, validateBatchCheckInV2]
      intro v hv hunpaused _ _ _ hvalid _ _
      obtain rfl | hid := List.mem_cons.mp hid
      · exact fun _ _ _ => ⟨v, hv, hunpaused, hvalid⟩
      · exact ih hid

/-- Every check-in that takes a passkey has found it registered, not reported and not in
escrow. -/
theorem execCheckIn_accepts {o : CheckInCall} (h : o.Presents id hash) :
    wp (execCheckIn o) (fun _ _ => ∃ v, s.Accepts e id hash v) e s := by
  cases o with
  | checkIn i a h' n =>
      obtain ⟨rfl, rfl⟩ := h
      exact checkIn_accepts
  | checkInWithGeo i a h' =>
      obtain ⟨rfl, rfl⟩ := h
      exact checkIn_accepts
  | batchCheckInV2 is a h' =>
      obtain ⟨hid, rfl⟩ := h
      exact batchCheckInV2_accepts hid
  | checkInWithPow i a h' n d =>
      obtain ⟨rfl, rfl⟩ := h
      simp only [execCheckIn, checkInWithPow, Tx.wp_bind, wp_loadPaused, wp_require, wp_requireAuth,
        wp_loadVault, wp_isCheckInDelegate, wp_timestamp, wp_validatePasskeyForCheckin, wp_verifyPow,
        wp_assertMaxTtl, wp_saveVault, wp_touchOwnerVaultIds, wp_recordCheckInHistory,
        wp_updateCheckInStreak]
      exact fun _ _ v hv hunpaused _ _ _ hvalid _ _ _ _ _ => ⟨v, hv, hunpaused, hvalid⟩
  | biometricCheckIn i a h' b =>
      obtain ⟨rfl, rfl⟩ := h
      simp only [execCheckIn, biometricCheckIn, Tx.wp_bind, wp_loadPaused, wp_require, wp_requireAuth,
        wp_loadVault, wp_isCheckInDelegate, wp_timestamp, wp_validatePasskeyForCheckin, wp_storageGet,
        Tx.wp_fromSome, wp_saveVault]
      exact fun _ _ v hv hunpaused _ _ _ hvalid _ _ _ => ⟨v, hv, hunpaused, hvalid⟩
  | _ => exact h.elim

/-! ### The passkeys of a vault do not run out -/

theorem setBiometric_ne_nil {b : Option Bytes} {l : List PasskeyHash} (h : l ≠ []) :
    setBiometric hash b l ≠ [] := by
  cases l with
  | nil => exact absurd rfl h
  | cons p ps =>
      unfold setBiometric
      split <;> simp

/-- A call about the passkeys of vault `id` leaves one, if there was one or it adds one. -/
theorem execPasskey_keyring {o : PasskeyCall} (hid : id ∈ o.footprint.vaults)
    (hkeys : .keyring ∈ o.footprint.areas) (hguard : KeyringKept s e (.passkey o))
    (h : s.keyring id ≠ [] ∨ ∃ a hash, o = .addPasskey id a hash) :
    wp (execPasskey o) (fun _ t => t.keyring id ≠ []) e s := by
  cases o with
  | addPasskey i a h' =>
      obtain rfl : id = i := by simpa [PasskeyCall.footprint] using hid
      simp [execPasskey, addPasskey, State.keyring]
  | bindPasskeyBiometric i a h' b =>
      obtain rfl : id = i := by simpa [PasskeyCall.footprint] using hid
      have hset := h.resolve_right (by simp)
      simp only [execPasskey, bindPasskeyBiometric, changeBiometric, Tx.wp_bind,
        wp_loadLockedByOwner, wp_storageGet, wp_require, wp_storageSet]
      intro _ _ _ _ _ _
      simpa [State.keyring] using setBiometric_ne_nil hset
  | unbindPasskeyBiometric i a h' =>
      obtain rfl : id = i := by simpa [PasskeyCall.footprint] using hid
      have hset := h.resolve_right (by simp)
      simp only [execPasskey, unbindPasskeyBiometric, changeBiometric, Tx.wp_bind,
        wp_loadLockedByOwner, wp_storageGet, wp_require, wp_storageSet]
      intro _ _ _ _ _ _
      simpa [State.keyring] using setBiometric_ne_nil hset
  | removePasskey i a h' =>
      obtain rfl : id = i := by simpa [PasskeyCall.footprint] using hid
      obtain ⟨p, hp, hne⟩ := hguard
      simp [execPasskey, removePasskey, State.keyring]
      intro _ _ _ _ _ l hl _ _ _
      exact ⟨p, by simpa [State.keyring, hl] using hp, hne⟩
  | approvePasskeyRecovery i a =>
      obtain rfl : id = i := by simpa [PasskeyCall.footprint] using hid
      have hset := h.resolve_right (by simp)
      simp [execPasskey, approvePasskeyRecovery, completePasskeyRecovery, State.keyring]
      intro _ _ _ _ _ _ _ _
      exact hset
  | recoverWithCode i code h' =>
      obtain rfl : id = i := by simpa [PasskeyCall.footprint] using hid
      simp [execPasskey, recoverWithCode, State.keyring]
  | _ => simp [PasskeyCall.footprint] at hkeys

/-- The vault is there and has a passkey in its list, so that its check-ins should ask for one. -/
def State.Protected (s : State) (id : Nat) : Prop :=
  (∃ v, s.vault id = some v) ∧ s.keyring id ≠ []

/-- One call leaves a passkey, if there was one or it adds one. -/
theorem protected_call (hnum : s.Numbered) (hguard : KeyringKept s e c)
    (hexec : exec c e s = .ok ((), t))
    (h : s.Protected id ∨ ∃ a hash, c = .passkey (.addPasskey id a hash)) : t.Protected id := by
  have hframe : Frame (c.footprint s) s t := exec_frame c hnum _ _ hexec
  obtain ⟨v, hv⟩ : ∃ v, s.vault id = some v := by
    obtain h | ⟨a, hash, rfl⟩ := h
    · exact h.1
    · have hloaded : wp (addPasskey id a hash) (fun _ _ => ∃ v, s.vault id = some v) e s := by
        simp [addPasskey]
        exact fun _ v hv _ _ => ⟨v, hv⟩
      exact hloaded _ _ hexec
  obtain ⟨w, hw, -⟩ := hframe.kept id v hv
  refine ⟨⟨w, hw⟩, ?_⟩
  by_cases hin : .keyring ∈ (c.footprint s).areas ∧ id ∈ (c.footprint s).vaults
  · obtain hc | ⟨o, rfl⟩ := Call.keys_writer (.inl hin.1)
    · -- the list of a new vault is written, but this vault was there
      obtain ⟨_, hcreates⟩ := exec_creates hc _ _ hexec
      have hkeys := (h.resolve_right (by rintro ⟨_, _, rfl⟩; exact hc)).2
      rwa [(registered_of_frame (hcreates.frame hnum) hv hw (.inl (not_mem_creation hnum hv))).1]
    · refine execPasskey_keyring hin.2 hin.1 hguard (h.imp (·.2) ?_) _ _ hexec
      rintro ⟨a, hash, ho⟩
      exact ⟨a, hash, Call.passkey.inj ho⟩
  · have hsame : t.get (.vaultPasskeys id) = s.get (.vaultPasskeys id) := by
      obtain harea | hid := not_and_or.mp hin
      · exact hframe.get_of_area (by simpa using harea)
      · exact hframe.get_of_vault rfl hid
    obtain ⟨-, hkeys⟩ | ⟨a, hash, rfl⟩ := h
    · simpa [State.keyring, hsame] using hkeys
    · simp [Call.footprint, PasskeyCall.footprint] at hin

end Protection

/-- In every run in which `remove_passkey` never removes the last passkey of a vault: once a
passkey was added to the vault, every check-in that presents a passkey presents one that is
registered, not reported as compromised and not in escrow. -/
theorem passkey_protection_stays {w₀ w w' : World} {ks : List Event} {e : Env} {c : CheckInCall}
    (h₀ : Genesis w₀) (hrun : Run (Guarded Step (OnCalls KeyringKept)) w₀ ks w) (id : Nat)
    (hadded : ∃ e a hash, .call e (.passkey (.addPasskey id a hash)) ∈ ks)
    (hstep : Step w (.call e (.checkIn c)) w') (hash : Bytes32) (hpresents : c.Presents id hash) :
    (∃ p ∈ w.state.keyring id, p.hash = hash) ∧
      hash ∉ (w.state.get (.compromisedPasskeys id)).getD [] ∧
        w.state.get (.passkeyEscrow id hash) = none := by
  have hkeys : w.state.Protected id := by
    refine history_of_calls (I := fun ks w => (∃ e a hash,
      .call e (.passkey (.addPasskey id a hash)) ∈ ks) → w.state.Protected id) h₀ hrun ?_ ?_ ?_ hadded
    · rintro ⟨_, _, _, hmem⟩
      cases hmem
    · rintro ks w e c t hnum hI hguard - hexec ⟨e', a, hash, hmem⟩
      refine protected_call hnum hguard hexec ?_
      obtain hnow | hbefore := List.mem_cons.mp hmem
      · exact .inr ⟨a, hash, (Event.call.inj hnow).2.symm⟩
      · exact .inl (hI ⟨e', a, hash, hbefore⟩)
    · rintro ks w l hI ⟨e', a, hash, hmem⟩
      exact hI ⟨e', a, hash, (List.mem_cons.mp hmem).resolve_left (by simp)⟩
  cases hstep with
  | call _ hexec =>
      obtain ⟨v, haccepts⟩ := execCheckIn_accepts hpresents _ _ hexec
      obtain ⟨hreg, hsafe, hfree, -⟩ := ok_validatePasskey.mp haccepts.valid
      exact ⟨mem_of_registered hkeys.2 hreg, hsafe, hfree⟩

/-- Of two passkeys one is removed; the owner checks in with the other. -/
theorem passkey_protection_stays_removed : ∃ w w' : World,
    Reachable w ∧
      Step w (.call (signedBy [⟨1⟩] 0) (.checkIn (.checkIn 1 ⟨1⟩ (Vector.replicate 32 2) 0))) w' ∧
        ∃ p ∈ w.state.keyring 1, p.hash = Vector.replicate 32 2 := by
  have hplay : (play (initialised ⟨8⟩ ⟨9⟩)
      [opensVault 100,
        (signedBy [⟨1⟩] 0, .passkey (.addPasskey 1 ⟨1⟩ (Vector.replicate 32 1))),
        (signedBy [⟨1⟩] 0, .passkey (.addPasskey 1 ⟨1⟩ (Vector.replicate 32 2)))]).any (fun w₁ =>
      (play w₁ [(signedBy [⟨1⟩] 0,
        .passkey (.removePasskey 1 ⟨1⟩ (Vector.replicate 32 1)))]).any fun w =>
      (play w [(signedBy [⟨1⟩] 0,
        .checkIn (.checkIn 1 ⟨1⟩ (Vector.replicate 32 2) 0))]).any fun _ =>
      (w₁.state.keyring 1).any fun p => decide (p.hash ≠ Vector.replicate 32 1)) = true := by
    decide +kernel
  obtain ⟨w₁, hw₁, hplay⟩ := (Option.any_eq_true _ _).mp hplay
  obtain ⟨w, hw, hplay⟩ := (Option.any_eq_true _ _).mp hplay
  obtain ⟨w', hw', hother⟩ := (Option.any_eq_true _ _).mp hplay
  have h₀ : Genesis (initialised ⟨8⟩ ⟨9⟩) := genesis_initialised (by decide) (by decide)
  have hkept : KeyringKept w₁.state (signedBy [⟨1⟩] 0)
      (.passkey (.removePasskey 1 ⟨1⟩ (Vector.replicate 32 1))) := by
    obtain ⟨p, hp, hne⟩ := List.any_eq_true.mp hother
    exact ⟨p, hp, of_decide_eq_true hne⟩
  have hrun := Run.next (guarded_of_play (P := KeyringKept) (by simp [KeyringKept]) hw₁)
    (guarded_step_of_play (P := KeyringKept) hkept hw)
  exact ⟨w, w', ⟨_, _, h₀, hrun.unguard⟩, step_of_play hw',
    (passkey_protection_stays h₀ hrun 1 ⟨_, _, _, .tail _ (.head _)⟩ (step_of_play hw')
      (Vector.replicate 32 2) ⟨rfl, rfl⟩).1⟩

/-- The owner removes his only passkey; afterwards a hash that was never registered is
accepted. -/
theorem last_passkey_removed : ¬ ∀ (w₀ w w' : World) (ks : List Event) (e : Env) (c : CheckInCall)
    (id : Nat) (hash : Bytes32), Genesis w₀ → Run Step w₀ ks w →
    (∃ e a hash, .call e (.passkey (.addPasskey id a hash)) ∈ ks) →
    Step w (.call e (.checkIn c)) w' → c.Presents id hash →
    ∃ p ∈ w.state.keyring id, p.hash = hash := by
  have hplay : (play (initialised ⟨8⟩ ⟨9⟩)
      [opensVault 100,
        (signedBy [⟨1⟩] 0, .passkey (.addPasskey 1 ⟨1⟩ (Vector.replicate 32 1))),
        (signedBy [⟨1⟩] 0, .passkey (.removePasskey 1 ⟨1⟩ (Vector.replicate 32 1)))]).any (fun w =>
      (play w [(signedBy [⟨1⟩] 0,
        .checkIn (.checkIn 1 ⟨1⟩ (Vector.replicate 32 2) 0))]).any fun _ =>
      decide (w.state.keyring 1 = [])) = true := by
    decide +kernel
  obtain ⟨w, hw, hplay⟩ := (Option.any_eq_true _ _).mp hplay
  obtain ⟨w', hw', hempty⟩ := (Option.any_eq_true _ _).mp hplay
  intro h
  obtain ⟨p, hp, -⟩ := h _ w w' _ _ _ 1 (Vector.replicate 32 2)
    (genesis_initialised (by decide) (by decide)) (run_of_play hw)
    ⟨signedBy [⟨1⟩] 0, ⟨1⟩, Vector.replicate 32 1, .tail _ (.head _)⟩ (step_of_play hw') ⟨rfl, rfl⟩
  rw [of_decide_eq_true hempty] at hp
  cases hp

end Heirloom
