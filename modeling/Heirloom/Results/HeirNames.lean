import Heirloom.Results.Approvals
import Heirloom.Results.ReleaseSplits
import Heirloom.Results.Rotations

/-!
# Heirs and who named them

Who inherits from a vault, and who may come to, stands in its record, in its rotation schedule, in
a pending update and in the proposals of its signers. Check-ins, releases, executions and updates
move addresses from one place to another, and a copied vault takes over the list of another.

* `heirs_named`: in every run, whoever stands in one of these places was named by a call that the
  owner of that time authorised.
* `release_pays_named`: so nobody but the owner and heirs that an owner has named is paid by a
  release.
-/

namespace Heirloom

open Transaction Runs

/-! ## Naming an heir -/

/-- Vault `id` keeps `a` as an heir, or as one to be by a scheduled rotation, a pending update or a
proposal. -/
inductive State.Names (s : State) (id : Nat) (a : Address) : Prop
  | standing (v : Vault) : s.vault id = some v → a ∈ v.electorate → s.Names id a
  | scheduled (r : BeneficiaryRotationEntry) : r ∈ s.rotations id →
      a ∈ r.newBeneficiaries.map (·.address) → s.Names id a
  | pending (p : PendingBeneficiaryUpdate) : s.get (.pendingBeneficiaryUpdate id) = some p →
      p.newBeneficiary = a → s.Names id a
  | proposed (pid : Nat) (p : MultiSigProposal) : s.get (.multiSigProposal id pid) = some p →
      p.operation = .updateBeneficiary → p.addressPayload = some a → s.Names id a

/-- The call by which the owner of vault `id` names `a`, at once or for a later time. -/
inductive Call.NamesHeir (id : Nat) (owner a : Address) : Call → Prop
  | set (l : List BeneficiaryEntry) : a ∈ l.map (·.address) →
      Call.NamesHeir id owner a (.heir (.setBeneficiaries id owner l))
  | added (bps : Nat) : Call.NamesHeir id owner a (.heir (.addBeneficiary id owner a bps))
  | scheduled (n : Nat) (l : List BeneficiaryEntry) : a ∈ l.map (·.address) →
      Call.NamesHeir id owner a (.heir (.scheduleBeneficiaryRotation id owner n l))
  | updated : Call.NamesHeir id owner a (.heir (.updateBeneficiary id owner a))
  | proposed (payload : Bytes) : Call.NamesHeir id owner a
      (.multisig (.proposeMultisig id owner .updateBeneficiary payload (some a)))

/-- The call makes a vault for `owner` with `a` as an heir. -/
inductive Call.MakesHeir (s : State) (owner a : Address) : Call → Prop
  | created (i : Nat) (token : Option Address) :
      Call.MakesHeir s owner a (.vault (.createVault owner a i token))
  | inherited (p i : Nat) (token : Option Address) :
      Call.MakesHeir s owner a (.vault (.createVaultFromInheritance p owner a i token))
  | cloned (source : Nat) : Call.MakesHeir s owner a (.vault (.cloneVault source owner a))
  | overridden (source : Nat) (i : Option Nat) (l : Option (List BeneficiaryEntry))
      (m : Option String) :
      Call.MakesHeir s owner a (.vault (.cloneVaultWithOverrides source owner a i l m))
  | listed (source : Nat) (b : Address) (i : Option Nat) (l : List BeneficiaryEntry)
      (m : Option String) : a ∈ l.map (·.address) →
      Call.MakesHeir s owner a (.vault (.cloneVaultWithOverrides source owner b i (some l) m))
  /-- The list comes from a vault of the same owner. -/
  | copied (source : Nat) (v : Vault) (b : Address) : s.vault source = some v → owner = v.owner →
      a ∈ v.beneficiaries.map (·.address) →
      Call.MakesHeir s owner a (.vault (.cloneVault source owner b))
  | copiedWith (source : Nat) (v : Vault) (b : Address) (i : Option Nat) (m : Option String) :
      s.vault source = some v → owner = v.owner → a ∈ v.beneficiaries.map (·.address) →
      Call.MakesHeir s owner a (.vault (.cloneVaultWithOverrides source owner b i none m))

/-- With the call `a` is named an heir of vault `id`, by the owner it has or by the owner for whom
the call makes it. -/
inductive NamedBy (e : Env) (s : State) (id : Nat) (a : Address) (c : Call) : Prop
  | owner (v : Vault) : s.vault id = some v → e.authorized v.owner = true →
      c.NamesHeir id v.owner a → NamedBy e s id a c
  | maker (owner : Address) : id = s.count + 1 → e.authorized owner = true →
      c.MakesHeir s owner a → NamedBy e s id a c

section Names

variable {e : Env} {s t : State} {c : Call} {id : Nat} {v w : Vault} {a : Address} {log : Log}

/-! ## New vaults -/

/-- Whoever inherits from a new vault has been named with it, by the call that its owner has
authorised. -/
def MakesHeirs (e : Env) (s : State) (c : Call) (t : State) : Prop :=
  ∃ v, Creates v s t ∧ e.authorized v.owner = true ∧ ∀ a ∈ v.electorate, c.MakesHeir s v.owner a

theorem createVault_heirs {o b : Address} {i : Nat} {token : Option Address} :
    wp (createVault o b i token)
      (fun _ t => MakesHeirs e s (.vault (.createVault o b i token)) t) e s := by
  have hheirs : ∀ {now token'}, ∀ a ∈ (emptyVault o b i now token' none).electorate,
      Call.MakesHeir s o a (.vault (.createVault o b i token)) := by
    intro now token' a ha
    obtain rfl : a = b := by simpa [Vault.electorate, emptyVault] using ha
    exact .created i token
  simp [createVault, resolveVaultToken, nextVaultId]
  intro hauth
  intros
  refine ⟨fun _ _ _ _ _ => ?_, fun _ _ _ _ => ?_⟩ <;>
    exact wp_storeNewVault (fresh_emptyVault (by assumption)) fun t ht =>
      ⟨_, ((ht.put (by simp) (by simp)).put (by simp) (by simp)).put (by simp) (by simp), hauth,
        hheirs⟩

theorem createVaultFromInheritance_heirs {p : Nat} {o b : Address} {i : Nat}
    {token : Option Address} :
    wp (createVaultFromInheritance p o b i token)
      (fun _ t => MakesHeirs e s (.vault (.createVaultFromInheritance p o b i token)) t) e s := by
  have hheirs : ∀ {now token'}, ∀ a ∈ (emptyVault o b i now token' (some p)).electorate,
      Call.MakesHeir s o a (.vault (.createVaultFromInheritance p o b i token)) := by
    intro now token' a ha
    obtain rfl : a = b := by simpa [Vault.electorate, emptyVault] using ha
    exact .inherited p i token
  simp [createVaultFromInheritance, resolveVaultToken, nextVaultId]
  intro hauth
  intros
  refine ⟨fun _ _ _ _ _ => ?_, fun _ _ _ _ => ?_⟩ <;>
    exact wp_storeNewVault (fresh_emptyVault (by assumption)) fun t ht => ⟨_, ht, hauth, hheirs⟩

theorem cloneVault_heirs {source : Nat} {o b : Address} :
    wp (cloneVault source o b) (fun _ t => MakesHeirs e s (.vault (.cloneVault source o b)) t)
      e s := by
  simp [cloneVault, loadCloneSource, nextVaultId]
  intro hauth original ho howner _ hne
  intros
  refine wp_storeNewVault (fresh_clonedVault hne ho (.inr (.inr rfl))) fun t ht =>
    ⟨_, ht, hauth, fun a ha => ?_⟩
  rcases List.mem_cons.mp ha with rfl | ha
  · exact .cloned source
  · exact .copied source original b ho howner ha

theorem cloneVaultWithOverrides_heirs {source : Nat} {o b : Address} {i : Option Nat}
    {bs : Option (List BeneficiaryEntry)} {m : Option String} :
    wp (cloneVaultWithOverrides source o b i bs m)
      (fun _ t => MakesHeirs e s (.vault (.cloneVaultWithOverrides source o b i bs m)) t) e s := by
  simp only [cloneVaultWithOverrides, loadCloneSource, Tx.wp_bind, wp_loadLockedByOwner, wp_require,
    Tx.wp_pure, wp_resolveIntervalOverride]
  intro hauth original ho howner _ hne interval _
  -- the list is the given one, or the one of the source
  cases bs with
  | none =>
      simp [resolveBeneficiariesOverride, nextVaultId]
      intros
      refine wp_storeNewVault (fresh_clonedVault hne ho (.inr (.inr rfl))) fun t ht =>
        ⟨_, ht, hauth, fun a ha => ?_⟩
      rcases List.mem_cons.mp ha with rfl | ha
      · exact .overridden source i none m
      · exact .copiedWith source original b i m ho howner ha
  | some l =>
      have hheirs : ∀ a ∈ b :: l.map (·.address),
          Call.MakesHeir s o a (.vault (.cloneVaultWithOverrides source o b i (some l) m)) := by
        intro a ha
        rcases List.mem_cons.mp ha with rfl | ha
        · exact .overridden source i (some l) m
        · exact .listed source b i l m ha
      simp [resolveBeneficiariesOverride, nextVaultId]
      refine ⟨fun _ _ htotal _ _ _ _ => ?_, fun hnone _ _ _ => ?_⟩
      · exact wp_storeNewVault (fresh_clonedVault hne ho (.inr (.inl htotal))) fun t ht =>
          ⟨_, ht, hauth, hheirs⟩
      · exact wp_storeNewVault (fresh_clonedVault hne ho (.inl hnone)) fun t ht =>
          ⟨_, ht, hauth, hheirs⟩

theorem exec_makesHeirs (hc : c.Creating) : wp (exec c) (fun _ t => MakesHeirs e s c t) e s := by
  cases c with
  | vault c =>
      cases c with
      | createVault =>
          simp only [exec, execVault, Tx.wp_bind, Tx.wp_pure]
          exact createVault_heirs
      | createVaultFromInheritance =>
          simp only [exec, execVault, Tx.wp_bind, Tx.wp_pure]
          exact createVaultFromInheritance_heirs
      | cloneVault =>
          simp only [exec, execVault, Tx.wp_bind, Tx.wp_pure]
          exact cloneVault_heirs
      | cloneVaultWithOverrides =>
          simp only [exec, execVault, Tx.wp_bind, Tx.wp_pure]
          exact cloneVaultWithOverrides_heirs
      | _ => exact hc.elim
  | _ => exact hc.elim

/-! ## Moving and naming in the record -/

/-- A rotation brings heirs of the record or of the schedule. -/
theorem names_of_rotated (hv : s.vault id = some v) (ha : a ∈ (v.rotated e s id).electorate) :
    s.Names id a := by
  rcases List.mem_cons.mp ha with rfl | ha
  · exact .standing v hv List.mem_cons_self
  unfold Vault.rotated rotatedBeneficiaries at ha
  split at ha
  · next r hr =>
      obtain ⟨schedule, hschedule, heffective⟩ := Option.bind_eq_some_iff.mp hr
      have hmem : r ∈ s.rotations id := by
        simpa [State.rotations, hschedule] using effectiveRotation_mem heffective
      split at ha
      · exact .scheduled r hmem ha
      · exact .standing v hv (List.mem_cons_of_mem _ ha)
  · exact .standing v hv (List.mem_cons_of_mem _ ha)

theorem execCheckIn_names {o : CheckInCall} (ho : .heirs ∈ (o.footprint s).parts)
    (hid : id ∈ (o.footprint s).vaults) (hs : s.Sound) :
    wp (execCheckIn o) (fun _ t => ∀ w, t.vault id = some w → ∀ a ∈ w.electorate, s.Names id a)
      e s := by
  intro _ t hexec w hw a ha
  have htakes : Call.takesRotation s e id (.checkIn o) = true := by
    cases o <;> simp_all [CheckInCall.footprint, Call.takesRotation]
  obtain ⟨v, w', hv, hw', hheirs⟩ := exec_rotates hs htakes hexec
  obtain rfl := Option.some.inj (hw.symm.trans hw')
  have hprimary : w.beneficiary = v.beneficiary := by
    obtain ⟨w', hw', hagree⟩ := (execCheckIn_frame o _ _ hexec).kept id v hv
    obtain rfl := Option.some.inj (hw.symm.trans hw')
    refine hagree.beneficiary.resolve_left ?_
    cases o <;> simp [CheckInCall.footprint]
  unfold Vault.electorate at ha
  rw [hheirs, hprimary] at ha
  exact names_of_rotated hv ha

theorem execRelease_names {o : ReleaseCall} (ho : o.footprint = releaseFootprint id)
    (hs : s.Sound) :
    wp (execRelease o) (fun _ t => ∀ w, t.vault id = some w → ∀ a ∈ w.electorate, s.Names id a)
      e s := by
  intro _ t hexec w hw a ha
  obtain ⟨mode, hrun⟩ := execRelease_internal ho hexec
  obtain ⟨v, hv, -, -, -, hreleases⟩ := triggerReleaseInternal_spec (hs.rotationSound id) _ _ hrun
  have hafter : ∀ {x log}, Transacts id v x log s t → w = x := fun htx =>
    Option.some.inj (hw.symm.trans ((htx.after id).trans (if_pos rfl)))
  cases hreleases with
  | refunded _ _ htx =>
      obtain rfl := hafter htx
      exact .standing v hv ha
  | vested _ htx =>
      obtain rfl := hafter htx
      exact names_of_rotated hv ha
  | paid _ _ htx =>
      obtain rfl := hafter htx
      exact names_of_rotated hv ha

/-- Edits of the list name the heirs they add. -/
theorem execHeir_names {o : HeirCall}
    (ho : .heirs ∈ o.footprint.parts ∨ .allocations ∈ o.footprint.parts)
    (hid : id ∈ o.footprint.vaults) :
    wp (execHeir o) (fun _ t => ∀ w, t.vault id = some w → ∀ a ∈ w.electorate,
      s.Names id a ∨ NamedBy e s id a (.heir o)) e s := by
  have hsave : ∀ {v : Vault} {l : List BeneficiaryEntry}, s.vault id = some v →
      (∀ a ∈ l.map (·.address), a ∈ v.beneficiaries.map (·.address) ∨
        NamedBy e s id a (.heir o)) →
      ∀ w, (s.put (.vault id) (v.withBeneficiaries l)).vault id = some w → ∀ a ∈ w.electorate,
        s.Names id a ∨ NamedBy e s id a (.heir o) := by
    intro v l hv hl w hw a ha
    obtain rfl : v.withBeneficiaries l = w := by simpa using hw
    rcases List.mem_cons.mp ha with rfl | ha
    · exact .inl (.standing v hv List.mem_cons_self)
    · exact (hl a ha).imp_left fun ha => .standing v hv (List.mem_cons_of_mem _ ha)
  have hkept : ∀ {v w : Vault} {t : State}, Transacts id v w [] s t →
      w.electorate = v.electorate → ∀ w, t.vault id = some w → ∀ a ∈ w.electorate,
        s.Names id a ∨ NamedBy e s id a (.heir o) := by
    intro v w t htx hsame x hx a ha
    obtain rfl := Option.some.inj (hx.symm.trans ((htx.after id).trans (if_pos rfl)))
    exact .inl (.standing v htx.before (hsame ▸ ha))
  cases o with
  | setBeneficiaries i b l =>
      obtain rfl : id = i := by simpa [HeirCall.footprint] using hid
      simp only [execHeir, setBeneficiaries, Tx.wp_bind, wp_requireAuth, wp_require,
        wp_loadLockedByOwner, wp_validateSplit, wp_saveVault]
      rintro hauth _ _ v hv rfl _ _ _ _
      exact hsave hv fun a ha => .inr (.owner v hv hauth (.set l ha))
  | addBeneficiary i b a bps =>
      obtain rfl : id = i := by simpa [HeirCall.footprint] using hid
      simp only [execHeir, addBeneficiary, Tx.wp_bind, wp_require, wp_loadLockedByOwner, wp_u32,
        wp_saveVault]
      rintro hauth v hv rfl _ _ _ _ _ _
      refine hsave hv fun a' ha => ?_
      rw [List.map_append] at ha
      rcases List.mem_append.mp ha with ha | ha
      · exact .inl ha
      · obtain rfl : a' = a := by simpa using ha
        exact .inr (.owner v hv hauth (.added bps))
  | removeBeneficiary i b a =>
      obtain rfl : id = i := by simpa [HeirCall.footprint] using hid
      simp only [execHeir, removeBeneficiary, Tx.wp_bind, wp_require, wp_loadLockedByOwner,
        wp_saveVault]
      intro _ v hv _ _ _
      exact hsave hv fun a ha => .inl ((List.filter_sublist.map _).subset ha)
  | setBenMinThreshold i b a x =>
      obtain rfl : id = i := by simpa [HeirCall.footprint] using hid
      simp only [execHeir, setBenMinThreshold, Tx.wp_bind, wp_require, wp_loadLockedByOwner,
        wp_saveVault]
      intro _ v hv _ _ _ _
      refine hsave hv fun a' ha => .inl ?_
      rw [List.map_map] at ha
      refine List.map_congr_left (fun entry _ => ?_) ▸ ha
      dsimp only [Function.comp_apply]
      split <;> rfl
  | clawbackPostRelease i b a =>
      obtain rfl : id = i := by simpa [HeirCall.footprint] using hid
      refine Tx.wp_mono clawbackPostRelease_spec ?_
      rintro _ t ⟨v, htx⟩
      exact hkept htx (by simp [Vault.electorate])
  | swapAllocations i b x y =>
      obtain rfl : id = i := by simpa [HeirCall.footprint] using hid
      refine Tx.wp_mono swapAllocations_spec ?_
      rintro _ t ⟨v, ia, ib, htx, -, -⟩
      exact hkept htx (by simp [Vault.electorate, map_address_swapBps])
  | _ => simp [HeirCall.footprint] at ho

/-- The two calls that change the primary heir take an address that is kept already. -/
theorem exec_primary (hheir : .beneficiary ∈ (c.footprint s).parts)
    (hid : id ∈ (c.footprint s).vaults) (hexec : exec c e s = .ok ((), t))
    (hw : t.vault id = some w) (ha : a ∈ w.electorate) : s.Names id a := by
  have hmoved : ∀ {v : Vault}, s.vault id = some v → a ∈ w.beneficiaries.map (·.address) →
      w.beneficiaries = v.beneficiaries → s.Names id a := fun hv ha hsame =>
    .standing _ hv (List.mem_cons_of_mem _ (hsame ▸ ha))
  rcases Call.beneficiary_writer hheir with ⟨i, b, rfl⟩ | ⟨i, pid, b, rfl⟩
  · obtain rfl : id = i := by simpa [Call.footprint, HeirCall.footprint] using hid
    obtain ⟨v, p, htx, -, -, hp, -⟩ := applyBeneficiaryUpdate_spec _ _ hexec
    obtain rfl := Option.some.inj (hw.symm.trans ((htx.after id).trans (if_pos rfl)))
    rcases List.mem_cons.mp ha with rfl | ha
    · exact .pending p hp rfl
    · exact hmoved htx.before ha rfl
  · obtain rfl : id = i := by simpa [Call.footprint, MultisigCall.footprint] using hid
    obtain ⟨v, p, hdone⟩ := executeMultisig_spec _ _ hexec
    obtain ⟨x, _, htx, houtcome, -⟩ := hdone.funds
    obtain rfl := Option.some.inj (hw.symm.trans ((htx.after id).trans (if_pos rfl)))
    by_cases hop : p.operation = .updateBeneficiary
    · rw [hop] at houtcome
      obtain ⟨b, hb, -, rfl⟩ := houtcome
      rcases List.mem_cons.mp ha with rfl | ha
      · exact .proposed pid p hdone.proposal hop hb
      · exact hmoved htx.before ha rfl
    · -- the other operations leave the heirs
      have hsame : w.electorate = v.electorate := by
        cases hcase : p.operation <;> simp only [hcase, MultiSigProposal.Outcome] at houtcome
        case updateBeneficiary => exact absurd hcase hop
        all_goals grind [Vault.electorate, Vault.withBalance, Vault.withOwner, Vault.withStatus,
          Vault.withCheckInInterval, Vault.withLastCheckIn]
      exact .standing v htx.before (hsame ▸ ha)

/-- Whoever stands in the record after a call was kept before it, or is named with it. -/
theorem exec_standing (hnum : s.Numbered) (hs : s.Sound) (hexec : exec c e s = .ok ((), t))
    (hw : t.vault id = some w) (ha : a ∈ w.electorate) :
    s.Names id a ∨ NamedBy e s id a c := by
  by_cases hc : c.Creating
  · obtain ⟨v, hcreates, hauth, hheirs⟩ := exec_makesHeirs hc _ _ hexec
    rw [hcreates.vault id] at hw
    split at hw
    · next hid =>
        obtain rfl := Option.some.inj hw
        exact .inr (.maker v.owner hid hauth (hheirs a ha))
    · exact .inl (.standing w hw ha)
  have hframe : Frame (c.footprint s) s t := exec_frame c hnum _ _ hexec
  by_cases hid : id ∈ (c.footprint s).vaults
  swap
  · exact .inl (.standing w ((hframe.vault_eq hid).symm.trans hw) ha)
  by_cases hheir : .beneficiary ∈ (c.footprint s).parts
  · exact .inl (exec_primary hheir hid hexec hw ha)
  by_cases hparts : .heirs ∈ (c.footprint s).parts ∨ .allocations ∈ (c.footprint s).parts
  · rcases Call.heirs_writer hparts with ⟨o, rfl, ho⟩ | ⟨o, rfl⟩ | ⟨o, i, rfl, ho⟩
    · exact .inl (execCheckIn_names ho hid hs _ _ hexec w hw a ha)
    · exact execHeir_names hparts hid _ _ hexec w hw a ha
    · obtain rfl : id = i := by simpa [Call.footprint, ho, releaseFootprint] using hid
      exact .inl (execRelease_names ho hs _ _ hexec w hw a ha)
  · obtain ⟨v, hv, hagree⟩ := hframe.vault_before (Call.not_creation hc).1 hw
    have hprimary : w.beneficiary = v.beneficiary := hagree.beneficiary.resolve_left hheir
    have hlist : w.beneficiaries = v.beneficiaries := hagree.heirs.resolve_right fun h =>
      hparts (h.imp_left And.left)
    unfold Vault.electorate at ha
    rw [hprimary, hlist] at ha
    exact .inl (.standing v hv ha)

/-! ## The other places -/

theorem scheduleBeneficiaryRotation_owner {b : Address} {n : Nat} {l : List BeneficiaryEntry} :
    wp (scheduleBeneficiaryRotation id b n l)
      (fun _ _ => ∃ v, s.vault id = some v ∧ b = v.owner ∧ e.authorized b = true) e s := by
  unfold scheduleBeneficiaryRotation
  rw [Tx.wp_bind, wp_loadLockedByOwner]
  intro hauth v hv howner _
  exact fun _ _ _ => ⟨v, hv, howner, hauth⟩

theorem exec_scheduled {r : BeneficiaryRotationEntry} (hnum : s.Numbered)
    (hexec : exec c e s = .ok ((), t)) (hr : r ∈ t.rotations id)
    (ha : a ∈ r.newBeneficiaries.map (·.address)) : s.Names id a ∨ NamedBy e s id a c := by
  rcases exec_schedule id hnum hexec with ⟨b, n, l, rfl, -, hmore⟩ | ⟨-, hsame⟩
  · rw [hmore] at hr
    rcases List.mem_append.mp hr with hr | hr
    · exact .inl (.scheduled r hr ha)
    · obtain rfl := List.mem_singleton.mp hr
      obtain ⟨v, hv, rfl, hauth⟩ := scheduleBeneficiaryRotation_owner _ _ hexec
      exact .inr (.owner v hv hauth (.scheduled n l ha))
  · exact .inl (.scheduled r (hsame ▸ hr) ha)

theorem execOwnership_pending {o : OwnershipCall} : wp (execOwnership o) (fun _ t =>
    t.get (.pendingBeneficiaryUpdate id) = s.get (.pendingBeneficiaryUpdate id)) e s := by
  cases o with
  | transferOwnership => simp [execOwnership, transferOwnership, changeOwner]
  | initiateOwnershipTransfer => simp [execOwnership, initiateOwnershipTransfer]
  | acceptOwnershipTransfer => simp [execOwnership, acceptOwnershipTransfer, changeOwner]
  | cancelOwnershipTransfer => simp [execOwnership, cancelOwnershipTransfer]
  | expireOwnershipTransfer => simp [execOwnership, expireOwnershipTransfer]

theorem exec_pending {p : PendingBeneficiaryUpdate} (hnum : s.Numbered)
    (hexec : exec c e s = .ok ((), t)) (hp : t.get (.pendingBeneficiaryUpdate id) = some p) :
    s.Names id p.newBeneficiary ∨ NamedBy e s id p.newBeneficiary c := by
  have hframe : Frame (c.footprint s) s t := exec_frame c hnum _ _ hexec
  by_cases harea : .transfers ∈ (c.footprint s).areas
  swap
  · refine .inl (.pending p ?_ rfl)
    rwa [← hframe.get_of_area (k := .pendingBeneficiaryUpdate id) (by simpa using harea)]
  by_cases hid : id ∈ (c.footprint s).vaults
  swap
  · refine .inl (.pending p ?_ rfl)
    rwa [← hframe.get_of_vault (k := .pendingBeneficiaryUpdate id) rfl hid]
  rcases Call.transfers_writer harea with ⟨o, rfl⟩ | ⟨i, b, a, rfl⟩ | ⟨i, b, rfl⟩
  · exact .inl (.pending p ((execOwnership_pending _ _ hexec).symm.trans hp) rfl)
  · obtain rfl : id = i := by simpa [Call.footprint, HeirCall.footprint] using hid
    have hrequest : wp (updateBeneficiary id b a) (fun _ t => ∃ v, s.vault id = some v ∧
        b = v.owner ∧ e.authorized b = true ∧
        ∀ p, t.get (.pendingBeneficiaryUpdate id) = some p → p.newBeneficiary = a) e s := by
      simp only [updateBeneficiary, Tx.wp_bind, wp_requireAuth, wp_loadVault, wp_require,
        wp_timestamp, wp_u64, wp_storageSet]
      intro hauth v hv howner _ _ _ _
      refine ⟨v, hv, howner, hauth, fun p hp => ?_⟩
      obtain rfl : _ = p := by simpa using hp
      rfl
    obtain ⟨v, hv, rfl, hauth, hnew⟩ := hrequest _ _ hexec
    rw [hnew p hp]
    exact .inr (.owner v hv hauth .updated)
  · obtain rfl : id = i := by simpa [Call.footprint, HeirCall.footprint] using hid
    have hnone : wp (applyBeneficiaryUpdate id b)
        (fun _ t => t.get (.pendingBeneficiaryUpdate id) = none) e s := by
      simp [applyBeneficiaryUpdate, moveBeneficiaryIndex]
    -- the update that was pending is gone
    cases (hnone _ _ hexec).symm.trans hp

theorem exec_proposed {pid : Nat} {p : MultiSigProposal} (hnum : s.Numbered)
    (hsound : s.ProposalsSound) (hexec : exec c e s = .ok ((), t))
    (hp : t.get (.multiSigProposal id pid) = some p) (hop : p.operation = .updateBeneficiary)
    (ha : p.addressPayload = some a) : s.Names id a ∨ NamedBy e s id a c := by
  cases exec_origin hnum hsound hexec hp with
  | kept q hq htask _ _ =>
      exact .inl (.proposed pid q hq (htask.operation.symm.trans hop)
        (htask.addressPayload.symm.trans ha))
  | signed q b v config hq _ _ _ _ _ _ _ heq =>
      subst heq
      exact .inl (.proposed pid q hq hop ha)
  | made b v hc hv howner hauth _ _ _ =>
      obtain rfl := howner
      rw [hop, ha] at hc
      exact .inr (.owner v hv hauth (hc ▸ .proposed p.payload))

/-- Whoever is kept as an heir after a call was kept before it, or is named with it. -/
theorem exec_names (hnum : s.Numbered) (hs : s.Sound) (hsound : s.ProposalsSound)
    (hexec : exec c e s = .ok ((), t)) (h : t.Names id a) :
    s.Names id a ∨ NamedBy e s id a c := by
  cases h with
  | standing w hw ha => exact exec_standing hnum hs hexec hw ha
  | scheduled r hr ha => exact exec_scheduled hnum hexec hr ha
  | pending p hp hnew => exact hnew ▸ exec_pending hnum hexec hp
  | proposed pid p hp hop ha => exact exec_proposed hnum hsound hexec hp hop ha

end Names

/-! ## Every run -/

section Provenance

variable {w₀ w w' : World} {ks : List Event} {k : Event} {id : Nat} {a : Address}

/-- The event names `a` an heir of vault `id`, on the authority of an owner. -/
def NamesHeir (id : Nat) (a : Address) (w : World) (k : Event) : Prop :=
  ∃ e c, k = .call e c ∧ NamedBy e w.state id a c

theorem Genesis.names (h : Genesis w) : ¬ w.state.Names id a := by
  intro hnames
  cases hnames with
  | standing v hv _ => cases (h.vault id).symm.trans hv
  | scheduled r hr _ => simp [State.rotations, h.get] at hr
  | pending p hp _ => simp [h.get] at hp
  | proposed pid p hp _ _ => simp [h.get] at hp

/-- In every run, whoever stands as an heir of a vault, or is to become one by its rotation
schedule, a pending update or a proposal, was named by a call that the owner of that time had
authorised. -/
theorem heirs_named (h₀ : Genesis w₀) (hrun : Run Step w₀ ks w) (h : w.state.Names id a) :
    Happened Step w₀ (NamesHeir id a) ks := by
  refine hrun.provenance (I := fun w a => w.state.Names id a) (B := NamesHeir id)
    (fun _ => h₀.names) ?_ h
  intro ks w k w' a hrun hstep hnames
  have hreach : Reachable w := ⟨w₀, ks, h₀, hrun⟩
  obtain ⟨hnum, hsound⟩ := proposalsSound_of_run h₀ hrun
  cases hstep with
  | tokens _ _ =>
      refine .inl ?_
      cases hnames with
      | standing v hv ha => exact .standing v hv ha
      | scheduled r hr ha => exact .scheduled r hr ha
      | pending p hp hnew => exact .pending p hp hnew
      | proposed pid p hp hop ha => exact .proposed pid p hp hop ha
  | call _ hexec =>
      exact (exec_names hnum hreach.sound hsound hexec hnames).imp_right fun hnamed =>
        ⟨_, _, rfl, hnamed⟩

/-- The heir that a check-in has taken from the schedule was named by the owner. -/
theorem rotated_heir_named : ∃ (ks : List Event) (w : World) (v : Vault),
    Run Step (initialised ⟨8⟩ ⟨9⟩) ks w ∧ w.state.vault 1 = some v ∧
      v.beneficiaries = [⟨⟨3⟩, 10000, 0⟩] ∧
      Happened Step (initialised ⟨8⟩ ⟨9⟩) (NamesHeir 1 ⟨3⟩) ks := by
  have hplay : (play (initialised ⟨8⟩ ⟨9⟩)
      (rotatingCalls ++ [ownerCheckIn (signedBy [⟨1⟩] 60)])).any (fun w =>
        (w.state.vault 1).any fun v => decide (v.beneficiaries = [⟨⟨3⟩, 10000, 0⟩])) = true := by
    decide +kernel
  obtain ⟨w, hw, hplay⟩ := (Option.any_eq_true _ _).mp hplay
  obtain ⟨v, hv, hplay⟩ := (Option.any_eq_true _ _).mp hplay
  have hheirs : v.beneficiaries = [⟨⟨3⟩, 10000, 0⟩] := of_decide_eq_true hplay
  have hstands : (⟨3⟩ : Address) ∈ v.electorate := by simp [Vault.electorate, hheirs]
  exact ⟨_, w, v, run_of_play hw, hv, hheirs, heirs_named
    (genesis_initialised (by decide) (by decide)) (run_of_play hw) (.standing v hv hstands)⟩

end Provenance

/-! ## What a release pays -/

/-- Every transfer goes to the owner of the record or to one of its heirs. -/
def Vault.Pays (v : Vault) (log : Log) : Prop :=
  ∀ x ∈ log, x.dest = v.owner ∨ x.dest ∈ v.electorate

section Payees

variable {e : Env} {s t : State} {id : Nat} {v : Vault} {mode : ReleaseTrigger} {log : Log}
  {token a : Address} {amount net : Int}

theorem Vault.pays_outgoing (h : a = v.owner ∨ a ∈ v.electorate) :
    v.Pays [outgoing token a amount] := by
  intro x hx
  obtain rfl := List.mem_singleton.mp hx
  exact h

theorem payRelease_payees : wp (payRelease id v amount net mode)
    (fun _ t => ∃ log, t = s.transferAll log ∧ v.Pays log) e s := by
  unfold payRelease
  split
  · simp only [wp_transfer]
    exact fun _ => ⟨_, State.pay_eq_transferAll, Vault.pays_outgoing (.inr List.mem_cons_self)⟩
  · simp only [distributeReleaseAmount, Tx.wp_bind, wp_storageGet]
    refine Tx.wp_mono wp_qualifyingHeirs ?_
    rintro l t ⟨rfl, hl⟩
    split
    · simp only [wp_transfer]
      exact fun _ => ⟨_, State.pay_eq_transferAll, Vault.pays_outgoing (.inl rfl)⟩
    · refine wp_payShares ⟨_, rfl, fun x hx => .inr ?_⟩
      by_contra hnot
      refine dest_paymentLog (a := x.dest) (fun entry hentry heq => hnot ?_) x hx rfl
      rw [hl] at hentry
      exact heq ▸ List.mem_cons_of_mem _ (List.mem_map_of_mem (List.mem_filter.mp hentry).1)

theorem releaseToHeirs_payees : wp (releaseToHeirs id v mode)
    (fun _ t => ∃ log, t.ledger = s.ledger.transferAll log ∧ (v.rotated e s id).Pays log) e s := by
  simp only [releaseToHeirs, releaseFunds, markReleaseAttempted, Tx.wp_bind, wp_timestamp,
    wp_applyRotation, wp_hasVesting, wp_storageSet, Tx.wp_ite, wp_saveVault,
    wp_recordStateTransition, wp_i128]
  refine fun _ _ => ⟨fun _ => ⟨[], rfl, fun x hx => absurd hx List.not_mem_nil⟩, fun _ _ _ => ?_⟩
  refine Tx.wp_mono payRelease_payees ?_
  rintro _ _ ⟨log, rfl, hpays⟩
  simp only [archiveReleased, Tx.wp_onlyIf, Tx.wp_bind, wp_recordStateTransition, wp_storageSet,
    wp_storageRemove]
  exact fun _ => ⟨fun _ => ⟨log, rfl, hpays⟩, fun _ => ⟨log, rfl, hpays⟩⟩

theorem triggerReleaseInternal_payees : wp (triggerReleaseInternal id mode)
    (fun _ t => ∃ v log, s.vault id = some v ∧ t.ledger = s.ledger.transferAll log ∧
      ∀ x ∈ log, x.dest = v.owner ∨ s.Names id x.dest) e s := by
  -- an acceptance that has lapsed refunds the owner, otherwise the heirs are paid
  refine triggerReleaseInternal_rule (fun v t hfound _ => ?_) fun v t hfound _ => ?_
  all_goals obtain ⟨hcleared, hvs, hvt, -⟩ := hfound
  · refine Tx.wp_mono (refundOwner_spec hvt) ?_
    rintro _ u ⟨htx, -⟩
    refine ⟨v, _, hvs, hcleared.ledger ▸ htx.ledger, fun x hx => .inl ?_⟩
    obtain rfl := List.mem_singleton.mp hx
    rfl
  · refine Tx.wp_mono releaseToHeirs_payees ?_
    rintro _ u ⟨log, hledger, hpays⟩
    rw [hcleared.rotated] at hpays
    exact ⟨v, log, hvs, hcleared.ledger ▸ hledger, fun x hx =>
      (hpays x hx).imp_right (names_of_rotated hvs)⟩

/-- In every run, a release makes no transfer but to the owner of the vault and to heirs that an
owner of the vault has named. -/
theorem release_pays_named {w₀ w w' : World} {ks : List Event} {o : ReleaseCall} (h₀ : Genesis w₀)
    (hrun : Run Step w₀ ks w) (hstep : Step w (.call e (.release o)) w')
    (ho : o.footprint = releaseFootprint id) :
    ∃ v log, w.state.vault id = some v ∧
      w'.state.ledger.log = w.state.ledger.log ++ log ∧
      ∀ x ∈ log, x.dest = v.owner ∨ Happened Step w₀ (NamesHeir id x.dest) ks := by
  obtain ⟨mode, hrelease⟩ := execRelease_internal ho hstep.exec_eq
  obtain ⟨v, log, hv, hledger, hpays⟩ := triggerReleaseInternal_payees _ _ hrelease
  refine ⟨v, log, hv, ?_, fun x hx => (hpays x hx).imp_right (heirs_named h₀ hrun)⟩
  rw [hledger, TokenLedger.Ledger.log_transferAll]

/-- A passer-by releases a vault, and the heir that the owner has scheduled is paid. -/
theorem released_heir_named : ∃ (ks : List Event) (w w' : World),
    Run Step (initialised ⟨8⟩ ⟨9⟩) ks w ∧
      Step w (.call (signedBy [] 90000) (.release (.triggerRelease 1))) w' ∧
      w'.state.ledger.log = w.state.ledger.log ++ [outgoing ⟨8⟩ ⟨3⟩ 10] ∧
      Happened Step (initialised ⟨8⟩ ⟨9⟩) (NamesHeir 1 ⟨3⟩) ks := by
  have hplay : (play (initialised ⟨8⟩ ⟨9⟩)
      [opensVault 100, paysIn 10,
        (signedBy [⟨1⟩] 0, .heir
          (.scheduleBeneficiaryRotation 1 ⟨1⟩ 50 [⟨⟨3⟩, 10000, 0⟩]))]).any (fun w =>
      (play w [(signedBy [] 90000, .release (.triggerRelease 1))]).any fun w' =>
        (w.state.vault 1).any fun v => decide (v.owner = ⟨1⟩ ∧
          w'.state.ledger.log = w.state.ledger.log ++ [outgoing ⟨8⟩ ⟨3⟩ 10])) = true := by
    decide +kernel
  obtain ⟨w, hw, hplay⟩ := (Option.any_eq_true _ _).mp hplay
  obtain ⟨w', hw', hplay⟩ := (Option.any_eq_true _ _).mp hplay
  obtain ⟨v, hv, hplay⟩ := (Option.any_eq_true _ _).mp hplay
  obtain ⟨howner, hpaid⟩ := of_decide_eq_true hplay
  obtain ⟨v', log, hv', hlog, hnamed⟩ := release_pays_named
    (genesis_initialised (by decide) (by decide)) (run_of_play hw) (step_of_play hw') rfl
  obtain rfl := Option.some.inj (hv.symm.trans hv')
  obtain rfl : _ = log := List.append_cancel_left (hpaid.symm.trans hlog)
  refine ⟨_, w, w', run_of_play hw, step_of_play hw', hpaid, ?_⟩
  rcases hnamed _ List.mem_cons_self with hself | hheir
  · rw [howner] at hself
    cases hself
  · exact hheir

end Payees

end Heirloom
