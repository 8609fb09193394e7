import Heirloom.Results.Releases

/-!
# Votes on a release

A release of a vault with a vote threshold has to have that many approvals. Only heirs may
vote, and a vote counts for as long as the vault exists: the list of votes is never looked
at again when the heirs change.

* `release_votes_bind_iff`: the approvals of a vault that has not been released are those
  of heirs of the day as long as no call takes the role of an heir away from somebody who
  has approved.
* `removed_heir_decides`: an heir approves, is removed, and its vote releases the vault.
-/

namespace Heirloom

open Transaction Runs

/-! ## Who has voted -/

/-- Everybody with a share in the vault. -/
def Vault.electorate (v : Vault) : List Address := v.beneficiary :: v.beneficiaries.map (·.address)

/-- A vote on the release of vault `id`. -/
def Event.vote? (id : Nat) : Event → Option (Address × Bool)
  | .call _ (.heir (.castReleaseVote i a approve)) => if i = id then some (a, approve) else none
  | _ => none

/-- The votes that a run has cast on vault `id`, newest first. -/
def votesCast (id : Nat) (ks : List Event) : List (Address × Bool) :=
  ks.filterMap (Event.vote? id)

/-- The votes on vault `id` that the contract has stored, oldest first. -/
def State.ballots (s : State) (id : Nat) : List (Address × Bool) :=
  ((s.get (.releaseVotes id)).getD []).map fun (vote : ReleaseVoteEntry) =>
    (vote.voter, vote.approve)

/-- A release of vault `id` would get as far as its votes: the vault is there and locked, and no
release of it was attempted. -/
structure State.Releasable (s : State) (id : Nat) (v : Vault) : Prop where
  vault : s.vault id = some v
  locked : v.status = .locked
  first : s.get (.releaseAttempted id) = none

/-- At least `n` different heirs of the vault are among those who voted for its release. -/
def ApprovedByHeirs (v : Vault) (votes : List (Address × Bool)) (n : Nat) : Prop :=
  ∃ voters : List Address, voters.Nodup ∧ n ≤ voters.length ∧
    ∀ a ∈ voters, a ∈ v.electorate ∧ (a, true) ∈ votes

/-- Whatever threshold the owner sets, the votes on vault `id` meet it only if that many
heirs of the day have approved. -/
def VotesBind (ks : List Event) (s : State) (id : Nat) : Prop :=
  ∀ v e t threshold, s.Releasable id v →
    assertVotesPassed id e (s.put (.releaseVoteThreshold id) threshold) = .ok ((), t) →
      ApprovedByHeirs v (votesCast id ks) threshold

/-! ## Who loses the role -/

/-- The heirs of vault `id`, a vault with record `v`, without those who lose the role by the
call. -/
def Call.electorateAfter (s : State) (e : Env) (id : Nat) (v : Vault) : Call → List Address
  | .heir (.setBeneficiaries i _ l) =>
      if id = i then (v.withBeneficiaries l).electorate else v.electorate
  | .heir (.removeBeneficiary i _ a) =>
      if id = i then (v.withBeneficiaries (v.beneficiaries.filter (·.address ≠ a))).electorate
      else v.electorate
  | .heir (.applyBeneficiaryUpdate i _) =>
      match s.get (.pendingBeneficiaryUpdate id) with
      | some (p : PendingBeneficiaryUpdate) =>
          if id = i then (v.withBeneficiary p.newBeneficiary).electorate else v.electorate
      | none => v.electorate
  | .multisig (.executeMultisig i pid _) =>
      match s.get (.multiSigProposal id pid) with
      | some (p : MultiSigProposal) =>
          if id = i ∧ p.operation = .updateBeneficiary then
            (v.withBeneficiary (p.addressPayload.getD v.beneficiary)).electorate
          else v.electorate
      | none => v.electorate
  | .checkIn (.checkIn i _ _ _) | .checkIn (.checkInWithGeo i _ _) =>
      if id = i then (v.rotated e s id).electorate else v.electorate
  | .checkIn (.batchCheckIn ids _) =>
      if id ∈ ids then (v.rotated e s id).electorate else v.electorate
  | _ => v.electorate

/-- The call takes the role of an heir from nobody who has voted for the release of a vault
that has not been released. -/
def SparesVoters (s : State) (e : Env) (c : Call) : Prop :=
  ∀ id v, s.Releasable id v → ∀ a ∈ v.electorate, (a, true) ∈ s.ballots id →
    a ∈ c.electorateAfter s e id v

section Votes

variable {e : Env} {s t : State} {c : Call} {id : Nat} {v w : Vault} {ks : List Event}

theorem votesCast_cons {k : Event} :
    votesCast id (k :: ks) = (Event.vote? id k).toList ++ votesCast id ks := by
  cases h : Event.vote? id k <;> simp [votesCast, h]

/-! ## What one call does to the heirs -/

/-- A call leaves everybody the role, or makes of the heirs exactly what `electorateAfter` says. -/
inductive RoleStep (s t : State) (e : Env) (id : Nat) (v : Vault) (c : Call) : Prop
  | kept (hafter : c.electorateAfter s e id v = v.electorate)
      (hheirs : ∀ w, t.Releasable id w → ∀ a ∈ v.electorate, a ∈ w.electorate)
  | edited (w : Vault) (hw : t.Releasable id w) (hheirs : w.electorate = c.electorateAfter s e id v)

theorem electorate_withBeneficiaries {l : List BeneficiaryEntry}
    (h : ∀ a ∈ v.beneficiaries.map (·.address), a ∈ l.map (·.address)) {a : Address}
    (ha : a ∈ v.electorate) : a ∈ (v.withBeneficiaries l).electorate := by
  rcases List.mem_cons.mp ha with rfl | ha
  · exact List.mem_cons_self
  · exact List.mem_cons_of_mem _ (h a ha)

@[simp] theorem map_address_zeroAllocation {a : Address} {l : List BeneficiaryEntry} :
    (zeroAllocation a l).map (·.address) = l.map (·.address) := by
  induction l with
  | nil => rfl
  | cons entry l ih =>
      unfold zeroAllocation
      split
      · rfl
      · simpa using ih

/-- Writing an entry anew with its own address changes no address. -/
theorem map_address_set {l : List BeneficiaryEntry} {i : Nat} {x y : BeneficiaryEntry}
    (hx : l[i]? = some x) (h : y.address = x.address) :
    (l.set i y).map (·.address) = l.map (·.address) := by
  have hmap : (l.map (·.address))[i]? = some x.address := by simp [hx]
  obtain ⟨hi, hself⟩ := List.getElem?_eq_some_iff.mp hmap
  rw [List.map_set, h, ← hself, List.set_getElem_self]

theorem map_address_swapBps {l : List BeneficiaryEntry} {i j : Nat} :
    (swapBps l i j).map (·.address) = l.map (·.address) := by
  unfold swapBps
  split
  · next x y hx hy =>
      rcases eq_or_ne i j with rfl | hij
      · rw [List.set_set]
        exact map_address_set hy rfl
      · have hy' : (l.set i { x with bps := y.bps })[j]? = some y := by
          rwa [List.getElem?_set_ne hij]
        calc ((l.set i { x with bps := y.bps }).set j { y with bps := x.bps }).map (·.address)
            = (l.set i { x with bps := y.bps }).map (·.address) := map_address_set hy' rfl
          _ = l.map (·.address) := map_address_set hx rfl
  · rfl

/-- A rotation that has been applied changes nothing when it is applied again. -/
theorem rotatedBeneficiaries_self {now : Nat} {schedule : Option (List BeneficiaryRotationEntry)}
    {l : List BeneficiaryEntry} :
    rotatedBeneficiaries now schedule (rotatedBeneficiaries now schedule l) =
      rotatedBeneficiaries now schedule l := by
  unfold rotatedBeneficiaries
  cases schedule.bind (effectiveRotation now) with
  | none => rfl
  | some r => by_cases hr : r.newBeneficiaries = [] <;> simp [hr]

/-- The second loop of a batch check-in rotates the heirs of every vault in the batch. -/
theorem forEach_applyBatchCheckIn_heirs {ids : List Nat} {now : Nat} (hv : s.vault id = some v) :
    wp (forEach ids (applyBatchCheckIn now)) (fun _ t => ∃ w, t.vault id = some w ∧
      w.beneficiary = v.beneficiary ∧ w.status = v.status ∧
        w.beneficiaries = if id ∈ ids then
          rotatedBeneficiaries now (s.get (.beneficiaryRotationSchedule id)) v.beneficiaries
        else v.beneficiaries) e s := by
  induction ids generalizing s v with
  | nil => simp [forEach, hv]
  | cons i is ih =>
      simp only [forEach, applyBatchCheckIn, Tx.wp_bind, wp_loadVault, wp_applyRotation,
        wp_saveVault]
      intro u hu
      rcases eq_or_ne id i with rfl | hi
      · obtain rfl : v = u := by simpa [hv] using hu
        refine Tx.wp_mono (ih (State.get_put_self)) ?_
        rintro _ t ⟨w, hw, hbeneficiary, hstatus, hheirs⟩
        refine ⟨w, hw, hbeneficiary, hstatus, ?_⟩
        rw [hheirs]
        simp [rotatedBeneficiaries_self]
      · refine Tx.wp_mono (ih (v := v) (by simpa [hi] using hv)) ?_
        rintro _ t ⟨w, hw, hbeneficiary, hstatus, hheirs⟩
        refine ⟨w, hw, hbeneficiary, hstatus, ?_⟩
        rw [hheirs]
        simp [hi]

/-! ## Which vaults a release can still reach -/

/-- A vault that a release has reached is out of reach for good. -/
theorem State.Releasable.before (hnum : s.Numbered) (hexec : exec c e s = .ok ((), t))
    (hv : s.vault id = some v) (hw : t.Releasable id w) : s.Releasable id v := by
  have hframe : Frame (c.footprint s) s t := exec_frame c hnum _ _ hexec
  obtain ⟨w', hw', hagree⟩ := hframe.kept id v hv
  obtain rfl : w' = w := by simpa [hw'] using hw.vault
  refine ⟨hv, hagree.status.elim (· ▸ hw.locked) fun h => absurd hw.locked h.2, ?_⟩
  by_cases harea : .release ∈ (c.footprint s).areas
  swap
  · exact (hframe.get_of_area (k := .releaseAttempted id) (by simpa using harea)) ▸ hw.first
  rcases Call.release_writer harea with ⟨o, i, rfl, ho⟩ | ⟨i, p, a, rfl⟩
  · rcases eq_or_ne id i with rfl | hi
    · obtain ⟨mode, hrun⟩ := execRelease_internal ho hexec
      exact (triggerReleaseInternal_first hrun).1
    · have hid : id ∉ ((Call.release o).footprint s).vaults := by
        rw [show (Call.release o).footprint s = releaseFootprint i from ho]
        simpa [releaseFootprint] using hi
      exact (hframe.get_of_vault (k := .releaseAttempted id) rfl hid) ▸ hw.first
  · have hsame : wp (revealBeneficiary i p a)
        (fun _ t => t.get (.releaseAttempted id) = s.get (.releaseAttempted id)) e s := by
      simp [revealBeneficiary]
    exact hsame _ _ hexec ▸ hw.first

/-- A call that has no part in releases leaves a locked vault within reach. -/
theorem State.Releasable.after {f : Footprint} (h : s.Releasable id v) (hframe : Frame f s t)
    (harea : .release ∉ f.areas) (hw : t.vault id = some w) (hlocked : w.status = v.status) :
    t.Releasable id w :=
  ⟨hw, hlocked.trans h.locked, (hframe.get_of_area (by simpa using harea)).trans h.first⟩

/-- After a release the vault is out of reach. -/
theorem triggerReleaseInternal_unreachable {mode : ReleaseTrigger} (hs : s.Sound)
    (hrun : triggerReleaseInternal id mode e s = .ok ((), t)) : ¬ t.Releasable id w := by
  intro hw
  obtain ⟨v, hv, -, -, -, hreleases⟩ := triggerReleaseInternal_spec (hs.rotationSound id) _ _ hrun
  cases hreleases with
  | refunded _ _ htx =>
      obtain rfl : _ = w := by simpa [hw.vault] using (htx.after id).symm
      exact absurd hw.locked (by simp)
  | vested _ _ hattempted => exact absurd (hattempted.symm.trans hw.first) (by simp)
  | paid _ _ _ hattempted => exact absurd (hattempted.symm.trans hw.first) (by simp)

/-! ## Steps of the heirs -/

/-- A call that does not touch the vault takes no role on it. -/
theorem electorateAfter_of_notMem (hid : id ∉ (c.footprint s).vaults) :
    c.electorateAfter s e id v = v.electorate := by
  unfold Call.electorateAfter
  split <;> try rfl
  all_goals
    simp only [Call.footprint, HeirCall.footprint, MultisigCall.footprint,
      CheckInCall.footprint, List.mem_singleton] at hid
  case h_3 | h_4 => split <;> simp [hid]
  all_goals simp [hid]

/-- Neither does one that leaves heirs and beneficiary alone. -/
theorem electorateAfter_of_parts (hheirs : .heirs ∉ (c.footprint s).parts)
    (hbeneficiary : .beneficiary ∉ (c.footprint s).parts) :
    c.electorateAfter s e id v = v.electorate := by
  unfold Call.electorateAfter
  split <;> first
    | rfl
    | simp [Call.footprint, HeirCall.footprint, MultisigCall.footprint,
        CheckInCall.footprint] at hheirs hbeneficiary

theorem execCheckIn_roleStep {o : CheckInCall} (ho : .heirs ∈ (o.footprint s).parts)
    (hr : s.Releasable id v) (hid : id ∈ (o.footprint s).vaults) :
    wp (execCheckIn o) (fun _ t => RoleStep s t e id v (.checkIn o)) e s := by
  intro _ t hexec
  have hframe : Frame (o.footprint s) s t := execCheckIn_frame o _ _ hexec
  have hone : ∀ {a hash nonce}, checkIn id a hash nonce e s = .ok ((), t) →
      ∃ w, t.vault id = some w ∧ w.status = v.status ∧
        w.electorate = (v.rotated e s id).electorate := by
    intro a hash nonce hcheck
    obtain ⟨v', log, htx, -⟩ := checkIn_spec _ _ hcheck
    obtain rfl : v' = v := by simpa [hr.vault] using htx.before.symm
    exact ⟨_, (htx.after id).trans (if_pos rfl), rfl, rfl⟩
  have hedited : ∀ {w : Vault}, .release ∉ (o.footprint s).areas → t.vault id = some w →
      w.status = v.status → w.electorate = (Call.checkIn o).electorateAfter s e id v →
        RoleStep s t e id v (.checkIn o) := fun harea hw hstatus hheirs =>
    .edited _ (hr.after hframe harea hw hstatus) hheirs
  cases o with
  | checkIn i a hash nonce =>
      obtain rfl : id = i := by simpa [CheckInCall.footprint] using hid
      obtain ⟨w, hw, hstatus, hheirs⟩ := hone hexec
      exact hedited (by simp [CheckInCall.footprint]) hw hstatus
        (by simpa [Call.electorateAfter] using hheirs)
  | checkInWithGeo i a hash =>
      obtain rfl : id = i := by simpa [CheckInCall.footprint] using hid
      obtain ⟨w, hw, hstatus, hheirs⟩ := hone hexec
      exact hedited (by simp [CheckInCall.footprint]) hw hstatus
        (by simpa [Call.electorateAfter] using hheirs)
  | batchCheckIn ids a =>
      have hbatch : wp (batchCheckIn ids a) (fun _ t => ∃ w, t.vault id = some w ∧
          w.status = v.status ∧ w.electorate = (v.rotated e s id).electorate) e s := by
        simp only [batchCheckIn, Tx.wp_bind, wp_loadPaused, wp_require, wp_requireAuth]
        intro _ _
        refine Tx.wp_mono validateBatchCheckIn_spec ?_
        rintro _ t ⟨ht, -⟩
        obtain rfl := ht.symm
        simp only [wp_timestamp]
        refine Tx.wp_mono (forEach_applyBatchCheckIn_heirs hr.vault) ?_
        rintro _ t ⟨w, hw, hbeneficiary, hstatus, hheirs⟩
        have hmem : id ∈ ids := by simpa [CheckInCall.footprint] using hid
        rw [if_pos hmem] at hheirs
        exact ⟨w, hw, hstatus, by rw [Vault.electorate, hbeneficiary, hheirs]; rfl⟩
      obtain ⟨w, hw, hstatus, hheirs⟩ := hbatch _ _ hexec
      have hmem : id ∈ ids := by simpa [CheckInCall.footprint] using hid
      exact hedited (by simp [CheckInCall.footprint]) hw hstatus
        (by simpa [Call.electorateAfter, hmem] using hheirs)
  | _ => simp [CheckInCall.footprint] at ho

theorem execHeir_roleStep {o : HeirCall}
    (ho : .heirs ∈ o.footprint.parts ∨ .allocations ∈ o.footprint.parts)
    (hr : s.Releasable id v) (hid : id ∈ o.footprint.vaults) :
    wp (execHeir o) (fun _ t => RoleStep s t e id v (.heir o)) e s := by
  intro _ t hexec
  have hframe : Frame o.footprint s t := execHeir_frame o _ _ hexec
  -- the record that the call leaves behind keeps every address
  have hkept : ∀ {l : List BeneficiaryEntry}, t.vault id = some (v.withBeneficiaries l) →
      (Call.heir o).electorateAfter s e id v = v.electorate →
      (∀ a ∈ v.beneficiaries.map (·.address), a ∈ l.map (·.address)) →
        RoleStep s t e id v (.heir o) := by
    refine fun hw hafter hl => .kept hafter fun w hw' a ha => ?_
    obtain rfl := Option.some.inj (hw.symm.trans hw'.vault)
    exact electorate_withBeneficiaries hl ha
  cases o with
  | setBeneficiaries i a l =>
      obtain rfl : id = i := by simpa [HeirCall.footprint] using hid
      have hset : wp (setBeneficiaries id a l)
          (fun _ t => t.vault id = some (v.withBeneficiaries l)) e s := by
        simp [setBeneficiaries, hr.vault]
      have hw := hset _ _ hexec
      exact .edited _ (hr.after hframe (by simp [HeirCall.footprint]) hw rfl)
        (by simp [Call.electorateAfter])
  | addBeneficiary i a b pct =>
      obtain rfl : id = i := by simpa [HeirCall.footprint] using hid
      have hadd : wp (addBeneficiary id a b pct) (fun _ t => t.vault id =
          some (v.withBeneficiaries (v.beneficiaries ++ [⟨b, pct, 0⟩]))) e s := by
        simp [addBeneficiary, hr.vault]
      exact hkept (hadd _ _ hexec) rfl (by simp +contextual)
  | removeBeneficiary i a b =>
      obtain rfl : id = i := by simpa [HeirCall.footprint] using hid
      have hremove : wp (removeBeneficiary id a b) (fun _ t => t.vault id =
          some (v.withBeneficiaries (v.beneficiaries.filter (·.address ≠ b)))) e s := by
        simp [removeBeneficiary, hr.vault]
      have hw := hremove _ _ hexec
      exact .edited _ (hr.after hframe (by simp [HeirCall.footprint]) hw rfl)
        (by simp [Call.electorateAfter])
  | setBenMinThreshold i a b x =>
      obtain rfl : id = i := by simpa [HeirCall.footprint] using hid
      have hset : wp (setBenMinThreshold id a b x) (fun _ t => t.vault id =
          some (v.withBeneficiaries (v.beneficiaries.map fun entry =>
            if entry.address = b then { entry with minimumThreshold := x } else entry))) e s := by
        simp [setBenMinThreshold, hr.vault]
      refine hkept (hset _ _ hexec) rfl fun a ha => ?_
      obtain ⟨entry, hentry, rfl⟩ := List.mem_map.mp ha
      rw [List.map_map]
      exact List.mem_map.mpr ⟨entry, hentry, by dsimp only [Function.comp_apply]; split <;> rfl⟩
  | clawbackPostRelease i a b =>
      obtain rfl : id = i := by simpa [HeirCall.footprint] using hid
      obtain ⟨v', htx⟩ := clawbackPostRelease_spec _ _ hexec
      obtain rfl : v' = v := by simpa [hr.vault] using htx.before.symm
      exact hkept ((htx.after id).trans (if_pos rfl)) rfl fun a ha => by simpa using ha
  | swapAllocations i a x y =>
      obtain rfl : id = i := by simpa [HeirCall.footprint] using hid
      obtain ⟨v', ia, ib, htx, -, -⟩ := swapAllocations_spec _ _ hexec
      obtain rfl : v' = v := by simpa [hr.vault] using htx.before.symm
      exact hkept ((htx.after id).trans (if_pos rfl)) rfl fun a ha => by
        rwa [map_address_swapBps]
  | _ => simp [HeirCall.footprint] at ho

theorem applyBeneficiaryUpdate_roleStep {a : Address} (hr : s.Releasable id v) :
    wp (applyBeneficiaryUpdate id a)
      (fun _ t => RoleStep s t e id v (.heir (.applyBeneficiaryUpdate id a))) e s := by
  intro _ t hexec
  have hframe := execHeir_frame (.applyBeneficiaryUpdate id a) _ _ hexec
  obtain ⟨v', p, htx, -, -, hp, -⟩ := applyBeneficiaryUpdate_spec _ _ hexec
  obtain rfl : v' = v := by simpa [hr.vault] using htx.before.symm
  have hw := (htx.after id).trans (if_pos rfl)
  exact .edited _ (hr.after hframe (by simp [HeirCall.footprint]) hw rfl)
    (by simp [Call.electorateAfter, hp])

theorem executeMultisig_roleStep {pid : Nat} {a : Address} (hr : s.Releasable id v) :
    wp (executeMultisig id pid a)
      (fun _ t => RoleStep s t e id v (.multisig (.executeMultisig id pid a))) e s := by
  intro _ t hexec
  have hframe := execMultisig_frame (.executeMultisig id pid a) _ _ hexec
  obtain ⟨v', p, hdone⟩ := executeMultisig_spec _ _ hexec
  obtain rfl : v' = v := by simpa [hr.vault] using hdone.vault.symm
  obtain ⟨w, _, htx, houtcome, -⟩ := hdone.funds
  have hw := (htx.after id).trans (if_pos rfl)
  cases hop : p.operation <;> simp only [hop, MultiSigProposal.Outcome] at houtcome
  case updateBeneficiary =>
    obtain ⟨b, hb, -, rfl⟩ := houtcome
    exact .edited _ (hr.after hframe (by simp [MultisigCall.footprint]) hw rfl)
      (by simp [Call.electorateAfter, hdone.proposal, hop, hb])
  all_goals
    refine .kept (by simp [Call.electorateAfter, hdone.proposal, hop]) fun u hu => ?_
    obtain rfl := Option.some.inj (hw.symm.trans hu.vault)
    have hsame : w.electorate = v'.electorate := by
      grind [Vault.electorate, Vault.withBalance, Vault.withOwner, Vault.withStatus,
        Vault.withCheckInInterval, Vault.withLastCheckIn]
    exact fun a ha => hsame ▸ ha

theorem exec_roleStep (hnum : s.Numbered) (hs : s.Sound) (hr : s.Releasable id v) :
    wp (exec c) (fun _ t => RoleStep s t e id v c) e s := by
  intro _ t hexec
  have hframe : Frame (c.footprint s) s t := exec_frame c hnum _ _ hexec
  obtain ⟨u, hu, hagree⟩ := hframe.kept id v hr.vault
  by_cases hid : id ∈ (c.footprint s).vaults
  swap
  · obtain rfl : v = u := by simpa [hr.vault] using (hframe.vault_eq hid).symm.trans hu
    refine .kept (electorateAfter_of_notMem hid) fun w hw => ?_
    obtain rfl := Option.some.inj (hu.symm.trans hw.vault)
    exact fun _ ha => ha
  by_cases hparts : .heirs ∈ (c.footprint s).parts ∨ .allocations ∈ (c.footprint s).parts
  · rcases Call.heirs_writer hparts with ⟨o, rfl, ho⟩ | ⟨o, rfl⟩ | ⟨o, i, rfl, ho⟩
    · exact execCheckIn_roleStep ho hr hid _ _ hexec
    · exact execHeir_roleStep hparts hr hid _ _ hexec
    · obtain rfl : id = i := by
        rw [show (Call.release o).footprint s = releaseFootprint i from ho] at hid
        simpa [releaseFootprint] using hid
      obtain ⟨mode, hrun⟩ := execRelease_internal ho hexec
      exact .kept rfl fun w hw => absurd hw (triggerReleaseInternal_unreachable hs hrun)
  · by_cases hbeneficiary : .beneficiary ∈ (c.footprint s).parts
    · rcases Call.beneficiary_writer hbeneficiary with ⟨i, a, rfl⟩ | ⟨i, pid, a, rfl⟩
      · obtain rfl : id = i := by simpa [Call.footprint, HeirCall.footprint] using hid
        exact applyBeneficiaryUpdate_roleStep hr _ _ hexec
      · obtain rfl : id = i := by simpa [Call.footprint, MultisigCall.footprint] using hid
        exact executeMultisig_roleStep hr _ _ hexec
    · refine .kept (electorateAfter_of_parts (fun h => hparts (.inl h)) hbeneficiary) fun w hw => ?_
      obtain rfl := Option.some.inj (hu.symm.trans hw.vault)
      have hsame : u.electorate = v.electorate := by
        rw [Vault.electorate, Vault.electorate, hagree.beneficiary.resolve_left hbeneficiary,
          hagree.heirs.resolve_right fun h => hparts (h.imp_left And.left)]
      exact fun a ha => hsame ▸ ha

/-! ## The votes on record -/

theorem castReleaseVote_spec {i : Nat} {a : Address} {approve : Bool} :
    wp (castReleaseVote i a approve) (fun _ t => ∃ v, s.vault i = some v ∧ a ∈ v.electorate ∧
      a ∉ (s.ballots i).map Prod.fst ∧ t = s.put (.releaseVotes i)
        ((s.get (.releaseVotes i)).getD [] ++ [⟨a, approve, e.timestamp⟩])) e s := by
  simp only [castReleaseVote, Tx.wp_bind, wp_requireAuth, wp_loadVault, wp_storageGet,
    Tx.wp_fromSome, wp_require, wp_timestamp, wp_storageSet]
  intro _ v hv _ _ hheir honce
  refine ⟨v, hv, ?_, ?_, trivial⟩
  · rcases hheir with rfl | ⟨entry, hentry, rfl⟩
    · exact List.mem_cons_self
    · exact List.mem_cons_of_mem _ (List.mem_map.mpr ⟨entry, hentry, rfl⟩)
  · intro ha
    obtain ⟨b, hb, rfl⟩ := List.mem_map.mp ha
    obtain ⟨vote, hvote, rfl⟩ := List.mem_map.mp hb
    exact honce vote hvote rfl

/-- The votes on vault `id` after a call: a call that casts a vote adds it, and every other
one leaves them alone. -/
theorem exec_ballots (hnum : s.Numbered) (id : Nat) :
    wp (exec c) (fun _ t => t.ballots id = s.ballots id ++ (Event.vote? id (.call e c)).toList ∧
      ∀ b, Event.vote? id (.call e c) = some b → b.1 ∉ (s.ballots id).map Prod.fst ∧
        ∃ v, s.vault id = some v ∧ b.1 ∈ v.electorate) e s := by
  intro _ t hexec
  by_cases hcast : ∃ i a approve, c = .heir (.castReleaseVote i a approve)
  · obtain ⟨i, a, approve, rfl⟩ := hcast
    obtain ⟨v, hv, hheir, honce, rfl⟩ := castReleaseVote_spec _ _ hexec
    rcases eq_or_ne i id with rfl | hi
    · simp only [Event.vote?, if_true, State.ballots, State.get_put_self]
      simp
      exact ⟨by simpa [State.ballots] using honce, v, hv, hheir⟩
    · simp [Event.vote?, hi, State.ballots, State.get_put_of_ne, hi.symm]
  · have hnone : Event.vote? id (.call e c) = none := by
      unfold Event.vote?
      split
      · next heq =>
          obtain ⟨-, rfl⟩ := Event.call.inj heq
          exact absurd ⟨_, _, _, rfl⟩ hcast
      · rfl
    have hsame : t.get (.releaseVotes id) = s.get (.releaseVotes id) := by
      by_cases harea : .heirs ∈ (c.footprint s).areas
      swap
      · exact (exec_frame c hnum _ _ hexec).get_of_area (by simpa using harea)
      obtain ⟨o, rfl⟩ := Call.heirsArea_writer harea
      refine execHeir_keys rfl ?_ _ _ hexec
      cases o with
      | castReleaseVote i a approve => exact absurd ⟨i, a, approve, rfl⟩ hcast
      | _ => simp [HeirCall.heirKeys]
    simp [hnone, State.ballots, hsame]

/-- The contract has on record what was voted, each voter once, and nothing about vaults that
do not exist. -/
structure Recorded (ks : List Event) (s : State) (id : Nat) : Prop where
  ballots : s.ballots id = (votesCast id ks).reverse
  once : ((s.ballots id).map Prod.fst).Nodup
  absent : s.vault id = none → s.ballots id = []

/-- Those whose vote counts. -/
def State.approvers (s : State) (id : Nat) : List Address :=
  ((s.ballots id).filter (·.2)).map Prod.fst

theorem mem_approvers {a : Address} : a ∈ s.approvers id ↔ (a, true) ∈ s.ballots id := by
  simp [State.approvers]

theorem length_approvers : (s.approvers id).length =
    ((s.get (.releaseVotes id)).getD []).countP fun (vote : ReleaseVoteEntry) => vote.approve := by
  simp [State.approvers, State.ballots, List.countP_eq_length_filter, List.filter_map,
    Function.comp_def]

theorem assertVotesPassed_ok {threshold : Nat} {u : Unit} :
    assertVotesPassed id e (s.put (.releaseVoteThreshold id) threshold) = .ok (u, t) ↔
      threshold ≤ (s.approvers id).length ∧ t = s.put (.releaseVoteThreshold id) threshold := by
  rw [length_approvers, and_comm, eq_comm (a := t)]
  simp [assertVotesPassed]

theorem Recorded.nodup (h : Recorded ks s id) : (s.approvers id).Nodup :=
  h.once.sublist (List.filter_sublist.map _)

/-- The votes bind exactly if everybody who has approved is an heir. -/
theorem votesBind_iff (h : Recorded ks s id) : VotesBind ks s id ↔
    ∀ v, s.Releasable id v → ∀ a, (a, true) ∈ s.ballots id → a ∈ v.electorate := by
  have hcast : ∀ b, b ∈ votesCast id ks ↔ b ∈ s.ballots id := by simp [h.ballots]
  constructor
  · intro hbind v hr a ha
    have e : Env := signedBy [] 0
    obtain ⟨voters, hnodup, hlength, hvoters⟩ :=
      hbind v e _ (s.approvers id).length hr (assertVotesPassed_ok.mpr ⟨le_rfl, rfl⟩)
    have hsub : voters ⊆ s.approvers id := fun b hb =>
      mem_approvers.mpr ((hcast _).mp (hvoters b hb).2)
    have hperm : voters.Perm (s.approvers id) :=
      (List.subperm_of_subset hnodup hsub).perm_of_length_le hlength
    exact (hvoters a (hperm.mem_iff.mpr (mem_approvers.mpr ha))).1
  · intro hheirs v e t threshold hr hpassed
    refine ⟨s.approvers id, h.nodup, (assertVotesPassed_ok.mp hpassed).1, fun a ha => ?_⟩
    have hballot := mem_approvers.mp ha
    exact ⟨hheirs v hr a hballot, (hcast _).mpr hballot⟩

/-- The checks of a release end with the votes. -/
theorem assertHeirsReady_votes {threshold : Nat} {u : Unit}
    (h : assertHeirsReady id v e s = .ok (u, s))
    (hthreshold : s.get (.releaseVoteThreshold id) = some threshold) :
    threshold ≤ (s.approvers id).length := by
  rw [length_approvers]
  simp only [assertHeirsReady, Tx.ok_bind] at h
  obtain ⟨_, _, -, _, _, -, _, _, -, _, _, -, _, x, -, hpassed⟩ := h
  simp [assertVotesPassed] at hpassed
  rcases hpassed with ⟨n, hn, rfl, hle⟩ | ⟨hnone, rfl⟩
  · obtain rfl := Option.some.inj (hn.symm.trans hthreshold)
    exact hle
  · exact absurd (hnone.symm.trans hthreshold) (by simp)

/-- A release that goes through has met the threshold. -/
theorem triggerReleaseInternal_votes {mode : ReleaseTrigger} {threshold : Nat}
    (hrun : triggerReleaseInternal id mode e s = .ok ((), t))
    (hthreshold : s.get (.releaseVoteThreshold id) = some threshold) :
    threshold ≤ (s.approvers id).length := by
  have hreleasable : ∀ {s₁ : State}, wp (assertReleasable id)
      (fun v t => Cleared id s₁ t ∧ ∃ u, assertHeirsReady id v e t = .ok (u, t)) e s₁ := by
    intro s₁
    simp only [assertReleasable, Tx.wp_bind, wp_assertNotPaused]
    intro _
    refine Tx.wp_mono tryRestoreArchivedVault_spec fun _ t ht => ?_
    simp [ht]
    exact fun v _ _ _ _ _ _ _ _ u hready => ⟨u, hready⟩
  simp only [triggerReleaseInternal, Tx.ok_bind] at hrun
  obtain ⟨_, s₁, hrequested, v, s₂, hchecked, -⟩ := hrun
  have hfirst := (assertReleaseRequested_spec _ _ hrequested).1
  obtain ⟨hsecond, u, hready⟩ := hreleasable _ _ hchecked
  have hcleared := hfirst.trans hsecond
  have hvotes := assertHeirsReady_votes hready ((hcleared.get _ (by simp)).trans hthreshold)
  rwa [State.approvers, State.ballots, hcleared.get _ (by simp)] at hvotes

/-! ## Runs -/

theorem Recorded.step (h : Recorded ks s id) (hnum : s.Numbered)
    (hexec : exec c e s = .ok ((), t)) : Recorded (.call e c :: ks) t id := by
  obtain ⟨hballots, hnew⟩ := exec_ballots hnum id _ _ hexec
  refine ⟨?_, ?_, fun hnone => ?_⟩
  · rw [hballots, votesCast_cons, h.ballots]
    cases Event.vote? id (.call e c) <;> simp
  · rw [hballots, List.map_append]
    cases hvote : Event.vote? id (.call e c) with
    | none => simpa using h.once
    | some b =>
        have honce := (hnew b hvote).1
        simp only [Option.toList_some, List.map_cons, List.map_nil]
        exact List.nodup_append.mpr ⟨h.once, by simp, by
          rintro a ha _ hb rfl
          exact honce (List.mem_singleton.mp hb ▸ ha)⟩
  · have hbefore : s.vault id = none := by
      cases hv : s.vault id with
      | none => rfl
      | some v =>
          obtain ⟨w, hw, -⟩ := (exec_frame c hnum _ _ hexec).kept id v hv
          simp [hw] at hnone
    cases hvote : Event.vote? id (.call e c) with
    | none => simp [hballots, hvote, h.absent hbefore]
    | some b =>
        obtain ⟨-, v, hv, -⟩ := hnew b hvote
        simp [hbefore] at hv

/-- Whoever has approved the release of a vault is an heir of it still, as long as it can be
released. -/
def State.HeirsVoted (s : State) : Prop :=
  ∀ id v, s.Releasable id v → ∀ a, (a, true) ∈ s.ballots id → a ∈ v.electorate

theorem electorateAfter_of_vote {b : Address × Bool} (h : Event.vote? id (.call e c) = some b) :
    c.electorateAfter s e id v = v.electorate := by
  unfold Event.vote? at h
  split at h
  · next heq =>
      obtain ⟨-, rfl⟩ := Event.call.inj heq
      rfl
  · cases h

/-- A call keeps the votes in step with the heirs exactly if it spares those who voted. -/
theorem exec_heirsVoted (hnum : s.Numbered) (hs : s.Sound) (hrecorded : ∀ id, Recorded ks s id)
    (hvoted : s.HeirsVoted) (hexec : exec c e s = .ok ((), t)) :
    t.HeirsVoted ↔ SparesVoters s e c := by
  constructor
  · intro hafter id v hr a _ ha
    cases exec_roleStep hnum hs hr _ _ hexec with
    | kept hsame _ => exact hsame ▸ hvoted id v hr a ha
    | edited w hw hheirs =>
        have hballots := (exec_ballots hnum id _ _ hexec).1
        exact hheirs ▸ hafter id w hw a (hballots ▸ List.mem_append_left _ ha)
  · intro hspares id w hw a ha
    obtain ⟨hballots, hnew⟩ := exec_ballots hnum id _ _ hexec
    rw [hballots] at ha
    -- a vault that did not exist has no votes, and gets none by the call that creates it
    have hexists : ∃ v, s.vault id = some v := by
      rcases List.mem_append.mp ha with hold | hnow
      · by_contra hnone
        have habsent := (hrecorded id).absent (by
          simpa [Option.eq_none_iff_forall_ne_some] using hnone)
        simp [habsent] at hold
      · obtain ⟨v, hv, -⟩ := (hnew _ (Option.mem_toList.mp hnow)).2
        exact ⟨v, hv⟩
    obtain ⟨v, hv⟩ := hexists
    have hr : s.Releasable id v := .before hnum hexec hv hw
    have hmem : a ∈ c.electorateAfter s e id v := by
      rcases List.mem_append.mp ha with hold | hnow
      · exact hspares id v hr a (hvoted id v hr a hold) hold
      · have hvote := Option.mem_toList.mp hnow
        obtain ⟨v', hv', hheir⟩ := (hnew _ hvote).2
        obtain rfl : v' = v := by simpa [hv] using hv'.symm
        rwa [electorateAfter_of_vote hvote]
    cases exec_roleStep hnum hs hr _ _ hexec with
    | kept hsame hheirs => exact hheirs w hw a (hsame ▸ hmem)
    | edited w' hw' hheirs =>
        obtain rfl := Option.some.inj (hw'.vault.symm.trans hw.vault)
        exact hheirs ▸ hmem

end Votes

/-- What holds along every run whose calls spare the voters. -/
structure VotesInStep (ks : List Event) (s : State) : Prop where
  sound : s.Sound
  recorded : ∀ id, Recorded ks s id
  voted : s.HeirsVoted

theorem votesInStep_of_run {w₀ w : World} {ks : List Event} (h₀ : Genesis w₀)
    (hrun : Run (Guarded Step (OnCalls SparesVoters)) w₀ ks w) : VotesInStep ks w.state := by
  refine history_of_calls (I := fun ks w => VotesInStep ks w.state) h₀ hrun ?_ ?_ ?_
  · have hempty : ∀ id, w₀.state.ballots id = [] := fun id => by
      simp [State.ballots, h₀.get (k := .releaseVotes id) (by simp)]
    exact ⟨h₀.sound, fun id => ⟨by simp [hempty, votesCast], by simp [hempty], fun _ => hempty id⟩,
      fun id v _ a ha => by simp [hempty] at ha⟩
  · rintro ks w e c t hnum ⟨hs, hrecorded, hvoted⟩ hspares _ hexec
    exact ⟨exec_sound hnum hs _ _ hexec, fun id => (hrecorded id).step hnum hexec,
      (exec_heirsVoted hnum hs hrecorded hvoted hexec).mpr hspares⟩
  · rintro ks w l ⟨hs, hrecorded, hvoted⟩
    refine ⟨⟨hs.heirs, hs.rotations, hs.settings⟩, fun id => ?_, fun id v hr => ?_⟩
    · obtain ⟨hballots, honce, habsent⟩ := hrecorded id
      exact ⟨hballots, honce, habsent⟩
    · exact hvoted id v ⟨hr.vault, hr.locked, hr.first⟩

/-- In every run whose calls take the role of an heir from nobody who has approved, the
votes on every vault bind: whatever the threshold, the release passes its vote check only if that
many heirs of the day have approved, so that a release that goes through has been approved by
them. After such a run the next call keeps that exactly if it meets the condition. -/
theorem release_votes_bind_iff {w₀ w : World} {ks : List Event} (h₀ : Genesis w₀)
    (hrun : Run (Guarded Step (OnCalls SparesVoters)) w₀ ks w) :
    (∀ id, VotesBind ks w.state id) ∧
    (∀ e id w' v threshold, Step w (.call e (.release (.triggerRelease id))) w' →
      w.state.vault id = some v → w.state.get (.releaseVoteThreshold id) = some threshold →
        ApprovedByHeirs v (votesCast id ks) threshold) ∧
    ∀ e c w', Step w (.call e c) w' →
      ((∀ id, VotesBind (.call e c :: ks) w'.state id) ↔ SparesVoters w.state e c) := by
  have hnum : w.state.Numbered := numbered_of_run hrun.unguard h₀
  obtain ⟨hs, hrecorded, hvoted⟩ := votesInStep_of_run h₀ hrun
  have hbind : ∀ id, VotesBind ks w.state id := fun id =>
    (votesBind_iff (hrecorded id)).mpr (hvoted id)
  refine ⟨hbind, fun e id w' v threshold hstep hv hthreshold => ?_, fun e c w' hstep => ?_⟩
  · cases hstep with
    | call _ hexec =>
        obtain ⟨hfirst, v', hv', hlocked⟩ := triggerReleaseInternal_first hexec
        obtain rfl := Option.some.inj (hv'.symm.trans hv)
        exact hbind id v' e _ threshold ⟨hv, hlocked, hfirst⟩
          (assertVotesPassed_ok.mpr ⟨triggerReleaseInternal_votes hexec hthreshold, rfl⟩)
  · cases hstep with
    | call _ hexec =>
        rw [← exec_heirsVoted hnum hs hrecorded hvoted hexec]
        exact forall_congr' fun id => votesBind_iff ((hrecorded id).step hnum hexec)

/-- Two heirs approve, and the release needs two. -/
theorem release_votes_bind_released : ∃ w w' : World, ∃ v : Vault, ∃ e : Env, ∃ ks : List Event,
    Reachable w ∧ Step w (.call e (.release (.triggerRelease 1))) w' ∧
      w.state.vault 1 = some v ∧ w.state.get (.releaseVoteThreshold 1) = some 2 ∧
        ApprovedByHeirs v (votesCast 1 ks) 2 := by
  let calls : List (Env × Call) :=
    [opensVault 100, paysIn 100,
      (signedBy [⟨1⟩] 0, .heir (.addBeneficiary 1 ⟨1⟩ ⟨3⟩ 5000)),
      (signedBy [⟨1⟩] 0, .heir (.setReleaseVoteThreshold 1 ⟨1⟩ 2)),
      (signedBy [⟨2⟩] 0, .heir (.castReleaseVote 1 ⟨2⟩ true)),
      (signedBy [⟨3⟩] 0, .heir (.castReleaseVote 1 ⟨3⟩ true)),
      (signedBy [⟨3⟩] 0, .heir (.submitProofOfLife 1 ⟨3⟩ 1000))]
  have hplay : (play (initialised ⟨8⟩ ⟨9⟩) calls).any (fun w =>
      (w.state.vault 1).any (fun v => v.beneficiary = ⟨2⟩) ∧
        (w.state.get (.releaseVoteThreshold 1)).any (fun (n : Nat) => n = 2) ∧
          (play w [(signedBy [] 200, .release (.triggerRelease 1))]).any
            fun _ => true) = true := by decide +kernel
  obtain ⟨w, hw, hchecks⟩ := (Option.any_eq_true _ _).mp hplay
  simp only [decide_eq_true_eq, Option.any_eq_true] at hchecks
  obtain ⟨⟨v, hv, -⟩, ⟨threshold, hthreshold, rfl⟩, w', hw', -⟩ := hchecks
  have h₀ : Genesis (initialised ⟨8⟩ ⟨9⟩) := genesis_initialised (by decide) (by decide)
  have hspares : ∀ p ∈ calls, ∀ s, SparesVoters s p.1 p.2 := by
    simp only [calls, List.forall_mem_cons]
    refine ⟨?_, ?_, ?_, ?_, ?_, ?_, ?_, by simp⟩ <;> exact fun s id v _ a ha _ => ha
  have hrun := guarded_of_play hspares hw
  exact ⟨w, w', v, _, _, reachable_of_play hw, step_of_play hw', hv, hthreshold,
    (release_votes_bind_iff h₀ hrun).2.1 _ 1 w' v 2 (step_of_play hw') hv hthreshold⟩

/-- An heir approves and is removed. Its vote alone meets the threshold. -/
theorem removed_heir_decides : ¬ ∀ (w₀ w w' : World) (ks : List Event) (e : Env) (id : Nat)
    (v : Vault) (threshold : Nat), Genesis w₀ → Run Step w₀ ks w →
      Step w (.call e (.release (.triggerRelease id))) w' → w.state.vault id = some v →
        w.state.get (.releaseVoteThreshold id) = some threshold →
          ApprovedByHeirs v (votesCast id ks) threshold := by
  let calls : List (Env × Call) :=
    [opensVault 100, paysIn 100,
      (signedBy [⟨1⟩] 0, .heir (.addBeneficiary 1 ⟨1⟩ ⟨3⟩ 5000)),
      (signedBy [⟨1⟩] 0, .heir (.setReleaseVoteThreshold 1 ⟨1⟩ 1)),
      (signedBy [⟨3⟩] 0, .heir (.castReleaseVote 1 ⟨3⟩ true)),
      (signedBy [⟨2⟩] 0, .heir (.submitProofOfLife 1 ⟨2⟩ 1000)),
      (signedBy [⟨1⟩] 0, .heir (.removeBeneficiary 1 ⟨1⟩ ⟨3⟩))]
  have hplay : (play (initialised ⟨8⟩ ⟨9⟩) calls).any (fun w =>
      (w.state.vault 1).any (fun v => v.beneficiary = ⟨2⟩ ∧ v.beneficiaries = []) ∧
        (w.state.get (.releaseVoteThreshold 1)).any (fun (n : Nat) => n = 1) ∧
          (play w [(signedBy [] 200, .release (.triggerRelease 1))]).any
            fun _ => true) = true := by decide +kernel
  obtain ⟨w, hw, hchecks⟩ := (Option.any_eq_true _ _).mp hplay
  simp only [decide_eq_true_eq, Option.any_eq_true] at hchecks
  obtain ⟨⟨v, hv, hprimary, hnone⟩, ⟨threshold, hthreshold, rfl⟩, w', hw', -⟩ := hchecks
  have h₀ : Genesis (initialised ⟨8⟩ ⟨9⟩) := genesis_initialised (by decide) (by decide)
  intro h
  obtain ⟨voters, -, hlength, hvoters⟩ :=
    h _ w w' _ _ 1 v 1 h₀ (run_of_play hw) (step_of_play hw') hv hthreshold
  obtain ⟨a, ha⟩ := List.exists_mem_of_length_pos (Nat.lt_of_lt_of_le Nat.one_pos hlength)
  obtain ⟨hheir, hvote⟩ := hvoters a ha
  obtain rfl : a = ⟨2⟩ := by simpa [Vault.electorate, hprimary, hnone] using hheir
  simp [votesCast, eventsOf, Event.vote?, calls] at hvote

end Heirloom
