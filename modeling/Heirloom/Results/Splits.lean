import Heirloom.Results.Installments

/-!
# Splits among heirs

Every list of heirs in the storage gives away at most the whole, whichever of the
calls that edit it was the last (`Reachable.sound`). With the list go the settings
that a release computes with: the burn percentage and the spending limit.

* `heirs_paid_in_full`: so the payout loop of the vesting claims short-changes nobody
  and has no overflow, as long as the vault is not overdrawn.
* `overdrawn_vault_pays_no_heirs`: a vault can be overdrawn by an escrow. A claim then
  takes a negative amount, which nobody is paid.
-/

namespace Heirloom

open Transaction Runs

/-! ## Edits of a list -/

section Lists

variable {l : List BeneficiaryEntry} {entry : BeneficiaryEntry} {a : Address}

@[simp] theorem totalBps_nil : totalBps [] = 0 := rfl

@[simp] theorem totalBps_cons : totalBps (entry :: l) = entry.bps + totalBps l := by
  simp [totalBps]

theorem totalBps_append {l' : List BeneficiaryEntry} :
    totalBps (l ++ l') = totalBps l + totalBps l' := by
  simp [totalBps]

theorem totalBps_filter_le {p : BeneficiaryEntry → Bool} : totalBps (l.filter p) ≤ totalBps l := by
  induction l with
  | nil => simp
  | cons entry l ih => by_cases hp : p entry = true <;> simp [hp] <;> omega

theorem totalBps_zeroAllocation_le : totalBps (zeroAllocation a l) ≤ totalBps l := by
  induction l with
  | nil => simp [zeroAllocation]
  | cons entry l ih =>
      unfold zeroAllocation
      split
      · simp
      · simpa using ih

/-- Replacing an entry changes the total by the difference of the shares. -/
theorem totalBps_set {i : Nat} {x : BeneficiaryEntry} (h : l[i]? = some x) (y : BeneficiaryEntry) :
    totalBps (l.set i y) + x.bps = totalBps l + y.bps := by
  induction l generalizing i with
  | nil => simp at h
  | cons entry l ih =>
      cases i with
      | zero =>
          obtain rfl : entry = x := by simpa using h
          simp
          omega
      | succ i =>
          have := ih (by simpa using h)
          simp
          omega

/-- A swap leaves the total alone, also where both positions are the same. -/
theorem totalBps_swapBps {i j : Nat} : totalBps (swapBps l i j) = totalBps l := by
  unfold swapBps
  split
  · next x y hx hy =>
      have hfirst := totalBps_set hx { x with bps := y.bps }
      by_cases hij : i = j
      · subst hij
        obtain rfl : x = y := by simpa [hx] using hy
        rw [List.set_set]
        exact Nat.add_right_cancel hfirst
      · have hsecond := totalBps_set (l := l.set i { x with bps := y.bps }) (i := j) (x := y)
          (by rwa [List.getElem?_set_ne hij]) { y with bps := x.bps }
        simp only at hfirst hsecond
        omega
  · rfl

/-- The entry in force is one of the schedule. -/
theorem effectiveRotation_mem {now : Nat} {schedule : List BeneficiaryRotationEntry}
    {r : BeneficiaryRotationEntry} (h : effectiveRotation now schedule = some r) :
    r ∈ schedule := by
  suffices hfold : ∀ (l : List BeneficiaryRotationEntry) (acc : Option BeneficiaryRotationEntry),
      (∀ r, acc = some r → r ∈ schedule) → (∀ r ∈ l, r ∈ schedule) →
      ∀ r, l.foldl (fun applied entry =>
        if entry.effectiveTimestamp ≤ now ∧
            (∀ a, applied = some a → a.effectiveTimestamp < entry.effectiveTimestamp) then
          some entry
        else applied) acc = some r → r ∈ schedule from
    hfold schedule none (by simp) (fun _ hr => hr) r h
  intro l
  induction l with
  | nil => exact fun acc hacc _ r hr => hacc r hr
  | cons x l ih =>
      intro acc hacc hl
      obtain ⟨hx, hl⟩ := List.forall_mem_cons.mp hl
      refine ih _ (fun r hr => ?_) hl
      dsimp only at hr
      split at hr
      · obtain rfl : x = r := by simpa using hr
        exact hx
      · exact hacc r hr

end Lists

/-! ## The invariant -/

/-- The burn is a part of the whole, and a spending limit is positive. -/
def Vault.InRange (v : Vault) : Prop :=
  v.burnPercentage ≤ 10000 ∧ ∀ l, v.spendingLimit = some l → 0 < l

/-- Lists of heirs give away at most the whole, also those of the rotation to come. -/
structure State.Sound (s : State) : Prop where
  heirs : ∀ id v, s.vault id = some v → totalBps v.beneficiaries ≤ 10000
  rotations : ∀ id schedule, s.get (.beneficiaryRotationSchedule id) = some schedule →
    ∀ r ∈ schedule, totalBps r.newBeneficiaries ≤ 10000
  settings : ∀ id v, s.vault id = some v → v.InRange

section Invariant

variable {e : Env} {s t : State} {c : Call} {id : Nat} {v w : Vault} {log : Log}

/-- The heirs after a rotation are those before it or an entry of the schedule. -/
theorem totalBps_rotated_le {l : List BeneficiaryEntry}
    {schedule : Option (List BeneficiaryRotationEntry)} {now : Nat}
    (h : ∀ rs, schedule = some rs → ∀ r ∈ rs, totalBps r.newBeneficiaries ≤ 10000)
    (hl : totalBps l ≤ 10000) : totalBps (rotatedBeneficiaries now schedule l) ≤ 10000 := by
  unfold rotatedBeneficiaries
  split
  · next r hr =>
      split
      · obtain ⟨rs, hrs, hmem⟩ := Option.bind_eq_some_iff.mp hr
        exact h rs hrs r (effectiveRotation_mem hmem)
      · exact hl
  · exact hl

theorem State.Sound.rotationSound (h : s.Sound) (id : Nat) : s.RotationSound e id :=
  fun v hv => totalBps_rotated_le (h.rotations id) (h.heirs id v hv)

/-- The heirs of every vault, after one record has been replaced. -/
theorem heirs_of_transacts (h : Transacts id v w log s t)
    (hs : ∀ id v, s.vault id = some v → totalBps v.beneficiaries ≤ 10000)
    (hw : totalBps w.beneficiaries ≤ 10000) :
    ∀ id v, t.vault id = some v → totalBps v.beneficiaries ≤ 10000 := by
  intro i x hx
  rw [h.after i] at hx
  split at hx
  · exact Option.some.inj hx ▸ hw
  · exact hs i x hx

theorem heirs_of_save
    (hs : ∀ id v, s.vault id = some v → totalBps v.beneficiaries ≤ 10000)
    (hw : totalBps w.beneficiaries ≤ 10000) :
    ∀ i x, (s.put (.vault id) w).vault i = some x → totalBps x.beneficiaries ≤ 10000 := by
  intro i x hx
  rw [State.vault_put_vault] at hx
  split at hx
  · exact Option.some.inj hx ▸ hw
  · exact hs i x hx

/-- The calls that edit the heirs of a vault. -/
theorem Call.heirs_writer
    (h : .heirs ∈ (c.footprint s).parts ∨ .allocations ∈ (c.footprint s).parts) :
    (∃ o, c = .checkIn o ∧ .heirs ∈ (o.footprint s).parts) ∨ (∃ o, c = .heir o) ∨
    ∃ o id, c = .release o ∧ o.footprint = releaseFootprint id := by
  cases c with
  | checkIn c =>
      refine .inl ⟨c, rfl, ?_⟩
      cases c <;> simp [Call.footprint, CheckInCall.footprint] at h ⊢
  | heir c => exact .inr (.inl ⟨c, rfl⟩)
  | release c =>
      cases c <;> simp [Call.footprint, ReleaseCall.footprint, releaseFootprint] at h ⊢
  | _ => simpa [Call.parts] using h.imp Call.mem_parts Call.mem_parts

theorem batchCheckIn_heirs {ids : List Nat} {caller : Address} (hs : s.Sound) :
    wp (batchCheckIn ids caller)
      (fun _ t => ∀ id v, t.vault id = some v → totalBps v.beneficiaries ≤ 10000) e s := by
  simp only [batchCheckIn, Tx.wp_bind, wp_loadPaused, wp_require, wp_requireAuth]
  intro _ _
  refine Tx.wp_mono validateBatchCheckIn_spec ?_
  rintro _ t ⟨ht, -⟩
  obtain rfl := ht.symm
  simp only [wp_timestamp]
  refine Tx.wp_mono (Tx.wp_forEach (I := fun t : State =>
    (∀ id v, t.vault id = some v → totalBps v.beneficiaries ≤ 10000) ∧
      ∀ i, t.get (.beneficiaryRotationSchedule i) = s.get (.beneficiaryRotationSchedule i))
    (fun i _ t ht => ?_) ⟨hs.heirs, fun _ => rfl⟩) fun _ t ht => ht.1
  simp only [applyBatchCheckIn, Tx.wp_bind, wp_loadVault, wp_applyRotation, wp_saveVault]
  intro v hv
  refine ⟨?_, fun j => by simpa using ht.2 j⟩
  refine heirs_of_save ht.1 ?_
  exact totalBps_rotated_le (fun rs hrs => hs.rotations i rs (ht.2 i ▸ hrs)) (ht.1 i v hv)

theorem execCheckIn_heirs {o : CheckInCall} (ho : .heirs ∈ (o.footprint s).parts) (hs : s.Sound) :
    wp (execCheckIn o)
      (fun _ t => ∀ id v, t.vault id = some v → totalBps v.beneficiaries ≤ 10000) e s := by
  have hone : ∀ {i a hash nonce}, wp (checkIn i a hash nonce)
      (fun _ t => ∀ id v, t.vault id = some v → totalBps v.beneficiaries ≤ 10000) e s := by
    intro i a hash nonce
    refine Tx.wp_mono checkIn_spec ?_
    rintro _ t ⟨v, log, htx, -⟩
    exact heirs_of_transacts htx hs.heirs
      (totalBps_rotated_le (hs.rotations i) (hs.heirs i v htx.before))
  cases o with
  | checkIn => exact hone
  | checkInWithGeo => exact hone
  | batchCheckIn => exact batchCheckIn_heirs hs
  | _ => simp [CheckInCall.footprint] at ho

theorem execHeir_heirs {o : HeirCall}
    (ho : .heirs ∈ o.footprint.parts ∨ .allocations ∈ o.footprint.parts) (hs : s.Sound) :
    wp (execHeir o)
      (fun _ t => ∀ id v, t.vault id = some v → totalBps v.beneficiaries ≤ 10000) e s := by
  have hsave : ∀ {i : Nat} {v : Vault} {l : List BeneficiaryEntry}, s.vault i = some v →
      totalBps l ≤ 10000 → ∀ id w, (s.put (.vault i) (v.withBeneficiaries l)).vault id = some w →
        totalBps w.beneficiaries ≤ 10000 := fun hv hl => heirs_of_save hs.heirs hl
  cases o with
  | setBeneficiaries i a l =>
      simp only [execHeir, setBeneficiaries, Tx.wp_bind, wp_requireAuth, wp_require,
        wp_loadLockedByOwner, wp_validateSplit, wp_saveVault]
      exact fun _ _ _ v hv _ _ _ htotal _ => hsave hv htotal.le
  | addBeneficiary i a b pct =>
      simp only [execHeir, addBeneficiary, Tx.wp_bind, wp_require, wp_loadLockedByOwner, wp_u32,
        wp_saveVault]
      intro _ v hv _ _ _ _ _ _ htotal
      exact hsave hv (by simpa [totalBps_append] using htotal)
  | removeBeneficiary i a b =>
      simp only [execHeir, removeBeneficiary, Tx.wp_bind, wp_require, wp_loadLockedByOwner,
        wp_saveVault]
      exact fun _ v hv _ _ _ => hsave hv (totalBps_filter_le.trans (hs.heirs i v hv))
  | setBenMinThreshold i a b x =>
      simp only [execHeir, setBenMinThreshold, Tx.wp_bind, wp_require, wp_loadLockedByOwner,
        wp_saveVault]
      intro _ v hv _ _ _ _
      refine hsave hv (le_of_eq_of_le ?_ (hs.heirs i v hv))
      unfold totalBps
      rw [List.map_map]
      refine congrArg List.sum (List.map_congr_left fun entry _ => ?_)
      dsimp only [Function.comp_apply]
      split <;> rfl
  | clawbackPostRelease i a b =>
      refine Tx.wp_mono clawbackPostRelease_spec ?_
      rintro _ t ⟨v, htx⟩
      exact heirs_of_transacts htx hs.heirs
        (totalBps_zeroAllocation_le.trans (hs.heirs i v htx.before))
  | swapAllocations i a x y =>
      refine Tx.wp_mono swapAllocations_spec ?_
      rintro _ t ⟨v, ia, ib, htx, -, -⟩
      exact heirs_of_transacts htx hs.heirs (totalBps_swapBps.trans_le (hs.heirs i v htx.before))
  | _ => simp [HeirCall.footprint] at ho

theorem triggerReleaseInternal_heirs {mode : ReleaseTrigger} (hs : s.Sound) :
    wp (triggerReleaseInternal id mode)
      (fun _ t => ∀ id v, t.vault id = some v → totalBps v.beneficiaries ≤ 10000) e s := by
  refine Tx.wp_mono (triggerReleaseInternal_spec (hs.rotationSound id)) ?_
  rintro _ t ⟨v, hv, -, -, -, hrel⟩
  have hrotated := hs.rotationSound (e := e) id v hv
  cases hrel with
  | refunded _ _ h _ => exact heirs_of_transacts h hs.heirs (hs.heirs id v hv)
  | vested _ h _ => exact heirs_of_transacts h hs.heirs hrotated
  | paid log _ h _ _ _ => exact heirs_of_transacts h hs.heirs hrotated

theorem execRelease_heirs {o : ReleaseCall} (ho : o.footprint = releaseFootprint id)
    (hs : s.Sound) :
    wp (execRelease o)
      (fun _ t => ∀ id v, t.vault id = some v → totalBps v.beneficiaries ≤ 10000) e s := by
  intro _ t hexec
  obtain ⟨mode, hrun⟩ := execRelease_internal ho hexec
  exact triggerReleaseInternal_heirs hs _ _ hrun

/-- A call that edits heirs leaves every list well formed. -/
theorem exec_heirs (hc : .heirs ∈ (c.footprint s).parts ∨ .allocations ∈ (c.footprint s).parts)
    (hs : s.Sound) :
    wp (exec c)
      (fun _ t => ∀ id v, t.vault id = some v → totalBps v.beneficiaries ≤ 10000) e s := by
  obtain ⟨o, rfl, ho⟩ | ⟨o, rfl⟩ | ⟨o, i, rfl, ho⟩ := Call.heirs_writer hc
  · exact execCheckIn_heirs ho hs
  · exact execHeir_heirs hc hs
  · exact execRelease_heirs ho hs

/-- The calls that write about heirs outside the records. -/
theorem Call.heirsArea_writer (h : .heirs ∈ (c.footprint s).areas) : ∃ o, c = .heir o := by
  cases c with
  | heir c => exact ⟨c, rfl⟩
  | _ => simpa [Call.areas] using Call.mem_areas h

/-- The keys about heirs, outside the record, that a call may write. -/
def HeirCall.heirKeys : HeirCall → List DataKey
  | .scheduleBeneficiaryRotation i _ _ _ => [.beneficiaryRotationSchedule i]
  | .declineBeneficiaryRole i a => [.beneficiaryStatusEntry i a, .beneficiaryStatus i]
  | .clawbackPostRelease i _ a | .markBeneficiaryReleased i _ a => [.clawbackReleaseTs i a]
  | .vetoReleaseCondition i _ | .revokeVetoReleaseCondition i _ =>
      [.beneficiaryReleaseConditionVeto i]
  | .acceptBeneficiaryRole i _ => [.beneficiaryStatus i]
  | .acceptWithConditions i _ | .approveConditionalAcceptance i | .setAcceptanceDeadline i _ =>
      [.conditionalAcceptance i]
  | .acceptWithThreshold i _ => [.beneficiaryConditionalAcceptance i]
  | .setBeneficiaryReleaseTriggers i _ _ _ => [.beneficiaryReleaseTriggers i]
  | .setBeneficiaryTierThreshold i _ a _ => [.beneficiaryTierThreshold i a]
  | .setReleaseConditions i _ _ => [.releaseConditions i]
  | .commitBeneficiary i _ _ => [.beneficiaryCommitment i]
  | .submitProofOfLife i _ _ => [.proofOfLife i]
  | .setReleaseVoteThreshold i _ _ => [.releaseVoteThreshold i]
  | .castReleaseVote i _ _ => [.releaseVotes i]
  | .setBeneficiaries .. | .addBeneficiary .. | .removeBeneficiary .. | .setBenMinThreshold ..
  | .swapAllocations .. | .updateBeneficiary .. | .applyBeneficiaryUpdate .. | .setReleaseCondition ..
  | .delegateBeneficiaryRole .. => []

theorem execHeir_keys {o : HeirCall} {k : DataKey} (hk : k.area = .heirs) (ho : k ∉ o.heirKeys) :
    wp (execHeir o) (fun _ t => t.get k = s.get k) e s := by
  by_cases harea : .heirs ∈ o.footprint.areas
  swap
  · exact Tx.wp_mono (execHeir_frame o) fun _ t ht => ht.get_of_area (by simpa [hk] using harea)
  have hvault : ∀ i, k ≠ .vault i := by
    rintro i rfl
    simp at hk
  cases o with
  | declineBeneficiaryRole i a =>
      have hforfeiture : ∀ i, k ≠ .vestingForfeiture i := by
        rintro i rfl
        simp at hk
      simp only [HeirCall.heirKeys, List.mem_cons, List.not_mem_nil, or_false, not_or] at ho
      simp only [execHeir, declineBeneficiaryRole, Tx.wp_bind, wp_requireAuth, wp_loadVault,
        wp_require, wp_storageSet, Tx.wp_onlyIf]
      intro _ v _ _
      refine ⟨fun _ => ?_, fun _ => ?_⟩ <;>
        exact wp_forfeitUnvested (by simp [ho]) fun _ _ _ _ _ => by simp [ho, hvault, hforfeiture]
  | clawbackPostRelease =>
      simp [execHeir, clawbackPostRelease, hvault, List.ne_of_not_mem_cons ho]
  | scheduleBeneficiaryRotation =>
      simp [execHeir, scheduleBeneficiaryRotation, List.ne_of_not_mem_cons ho]
  | markBeneficiaryReleased => simp [execHeir, markBeneficiaryReleased, List.ne_of_not_mem_cons ho]
  | vetoReleaseCondition => simp [execHeir, vetoReleaseCondition, List.ne_of_not_mem_cons ho]
  | revokeVetoReleaseCondition =>
      simp [execHeir, revokeVetoReleaseCondition, List.ne_of_not_mem_cons ho]
  | acceptBeneficiaryRole => simp [execHeir, acceptBeneficiaryRole, List.ne_of_not_mem_cons ho]
  | acceptWithConditions => simp [execHeir, acceptWithConditions, List.ne_of_not_mem_cons ho]
  | approveConditionalAcceptance =>
      simp [execHeir, approveConditionalAcceptance, List.ne_of_not_mem_cons ho]
  | setAcceptanceDeadline => simp [execHeir, setAcceptanceDeadline, List.ne_of_not_mem_cons ho]
  | acceptWithThreshold => simp [execHeir, acceptWithThreshold, List.ne_of_not_mem_cons ho]
  | setBeneficiaryReleaseTriggers =>
      simp [execHeir, setBeneficiaryReleaseTriggers, List.ne_of_not_mem_cons ho]
  | setBeneficiaryTierThreshold =>
      simp [execHeir, setBeneficiaryTierThreshold, List.ne_of_not_mem_cons ho]
  | setReleaseConditions => simp [execHeir, setReleaseConditions, List.ne_of_not_mem_cons ho]
  | commitBeneficiary => simp [execHeir, commitBeneficiary, List.ne_of_not_mem_cons ho]
  | submitProofOfLife => simp [execHeir, submitProofOfLife, List.ne_of_not_mem_cons ho]
  | setReleaseVoteThreshold => simp [execHeir, setReleaseVoteThreshold, List.ne_of_not_mem_cons ho]
  | castReleaseVote => simp [execHeir, castReleaseVote, List.ne_of_not_mem_cons ho]
  | setReleaseCondition => simp [execHeir, setReleaseCondition, hvault]
  | _ => simp [HeirCall.footprint] at harea

/-- Only `schedule_beneficiary_rotation` writes rotation schedules. -/
theorem execHeir_rotations {o : HeirCall} (id : Nat)
    (ho : ∀ i a n l, o ≠ .scheduleBeneficiaryRotation i a n l) :
    wp (execHeir o) (fun _ t => t.get (.beneficiaryRotationSchedule id) =
      s.get (.beneficiaryRotationSchedule id)) e s := by
  refine execHeir_keys rfl ?_
  cases o with
  | scheduleBeneficiaryRotation i a n l => exact absurd rfl (ho i a n l)
  | _ => simp [HeirCall.heirKeys]

theorem scheduleBeneficiaryRotation_spec {i n : Nat} {a : Address} {l : List BeneficiaryEntry} :
    wp (scheduleBeneficiaryRotation i a n l) (fun _ t => totalBps l = 10000 ∧
      t = s.put (.beneficiaryRotationSchedule i)
        ((s.get (.beneficiaryRotationSchedule i)).getD [] ++ [⟨n, l⟩])) e s := by
  simp only [scheduleBeneficiaryRotation, Tx.wp_bind, wp_loadLockedByOwner, wp_require,
    wp_validateSplit, wp_storageGet, wp_storageSet]
  exact fun _ v _ _ _ _ _ htotal _ => ⟨htotal, trivial⟩

theorem exec_rotations (hnum : s.Numbered) (hs : s.Sound) :
    wp (exec c) (fun _ t => ∀ id rs, t.get (.beneficiaryRotationSchedule id) = some rs →
      ∀ r ∈ rs, totalBps r.newBeneficiaries ≤ 10000) e s := by
  by_cases harea : .heirs ∈ (c.footprint s).areas
  swap
  · refine Tx.wp_mono (exec_frame c hnum) fun _ t ht id rs hrs => ?_
    rw [ht.get_of_area (by simpa using harea)] at hrs
    exact hs.rotations id rs hrs
  obtain ⟨o, rfl⟩ := Call.heirsArea_writer harea
  by_cases ho : ∃ i a n l, o = .scheduleBeneficiaryRotation i a n l
  · obtain ⟨i, a, n, l, rfl⟩ := ho
    refine Tx.wp_mono scheduleBeneficiaryRotation_spec ?_
    rintro _ _ ⟨htotal, rfl⟩ id rs hrs r hr
    by_cases hid : id = i
    · subst hid
      rw [State.get_put_self, Option.some.injEq] at hrs
      obtain hold | rfl : r ∈ (s.get (.beneficiaryRotationSchedule id)).getD [] ∨ r = ⟨n, l⟩ := by
        simpa [← hrs] using hr
      · cases hget : s.get (.beneficiaryRotationSchedule id) with
        | none => simp [hget] at hold
        | some rs' => exact hs.rotations id rs' hget r (by simpa [hget] using hold)
      · exact htotal.le
    · rw [State.get_put_of_ne (by simpa using hid)] at hrs
      exact hs.rotations id rs hrs r hr
  · intro _ t hexec id rs hrs
    have hkeep := execHeir_rotations id (fun i a n l h => ho ⟨i, a, n, l, h⟩) _ _ hexec
    exact hs.rotations id rs (hkeep ▸ hrs)

/-- The calls that set what a release computes with. -/
theorem Call.setting_writer (h : .burn ∈ (c.footprint s).parts ∨ .limit ∈ (c.footprint s).parts) :
    (∃ i x, c = .vault (.setBurnPercentage i x)) ∨ ∃ i x, c = .vault (.setSpendingLimit i x) := by
  cases c with
  | vault c => cases c <;> simp [Call.footprint, VaultCall.footprint, State.creation] at h ⊢
  | _ => simpa [Call.parts] using h.imp Call.mem_parts Call.mem_parts

theorem exec_settings (hc : .burn ∈ (c.footprint s).parts ∨ .limit ∈ (c.footprint s).parts)
    (hs : ∀ id v, s.vault id = some v → v.InRange) :
    wp (exec c) (fun _ t => ∀ id v, t.vault id = some v → v.InRange) e s := by
  have hsave : ∀ {i : Nat} {w : Vault}, w.InRange →
      ∀ id v, (s.put (.vault i) w).vault id = some v → v.InRange := by
    intro i w hw id v hv
    rw [State.vault_put_vault] at hv
    split at hv
    · exact Option.some.inj hv ▸ hw
    · exact hs id v hv
  obtain ⟨i, x, rfl⟩ | ⟨i, x, rfl⟩ := Call.setting_writer hc
  · simp only [exec, execVault, setBurnPercentage, Tx.wp_bind, wp_loadVault, wp_requireAuth,
      wp_require, wp_saveVault]
    exact fun v hv _ hx => hsave ⟨hx, (hs i v hv).2⟩
  · simp only [exec, execVault, setSpendingLimit, Tx.wp_bind, wp_loadVault, wp_requireAuth,
      wp_ifSome_require, wp_saveVault]
    exact fun v hv _ hx => hsave ⟨(hs i v hv).1, hx⟩

theorem Vault.Fresh.sound (h : v.Fresh s) (hs : s.Sound) :
    totalBps v.beneficiaries ≤ 10000 ∧ v.InRange := by
  refine ⟨?_, ?_, fun l hl => ?_⟩
  · obtain hnil | hall | ⟨i, o, ho, hcopy⟩ := h.split
    · simp [hnil]
    · exact hall.le
    · exact hcopy ▸ hs.heirs i o ho
  · obtain hzero | ⟨i, o, ho, hcopy⟩ := h.burn
    · omega
    · exact hcopy ▸ (hs.settings i o ho).1
  · obtain hnone | ⟨i, o, ho, hcopy⟩ := h.limit
    · simp [hnone] at hl
    · exact (hs.settings i o ho).2 l (hcopy ▸ hl)

theorem exec_sound (hnum : s.Numbered) (hs : s.Sound) : wp (exec c) (fun _ t => t.Sound) e s := by
  intro _ t hexec
  have hrotations := exec_rotations hnum hs _ _ hexec
  by_cases hc : c.Creating
  · obtain ⟨v, hcreates⟩ := exec_creates hc _ _ hexec
    obtain ⟨hheirs, hrange⟩ := hcreates.fresh.sound hs
    refine ⟨fun id w hw => ?_, hrotations, fun id w hw => ?_⟩ <;>
      rw [hcreates.vault id] at hw <;> split at hw
    · exact Option.some.inj hw ▸ hheirs
    · exact hs.heirs id w hw
    · exact Option.some.inj hw ▸ hrange
    · exact hs.settings id w hw
  have hframe : Frame (c.footprint s) s t := exec_frame c hnum _ _ hexec
  have hbefore : ∀ id w, t.vault id = some w → ∃ v, s.vault id = some v ∧
      v.AgreeOff (c.footprint s).parts w := fun id w hw =>
    hframe.vault_before (Call.not_creation hc).1 hw
  refine ⟨?_, hrotations, ?_⟩
  · by_cases hparts : .heirs ∈ (c.footprint s).parts ∨ .allocations ∈ (c.footprint s).parts
    · exact exec_heirs hparts hs _ _ hexec
    · intro id w hw
      obtain ⟨v, hv, hagree⟩ := hbefore id w hw
      have hsame : w.beneficiaries = v.beneficiaries := hagree.heirs.resolve_right fun h =>
        hparts (h.imp_left And.left)
      exact hsame ▸ hs.heirs id v hv
  · by_cases hparts : .burn ∈ (c.footprint s).parts ∨ .limit ∈ (c.footprint s).parts
    · exact exec_settings hparts hs.settings _ _ hexec
    · intro id w hw
      obtain ⟨v, hv, hagree⟩ := hbefore id w hw
      obtain ⟨hburn, hlimit⟩ := hs.settings id v hv
      have hsame := hagree.burn.resolve_left fun h => hparts (.inl h)
      have hsame' := hagree.limit.resolve_left fun h => hparts (.inr h)
      exact ⟨hsame ▸ hburn, hsame' ▸ hlimit⟩

theorem Genesis.sound {w : World} (h : Genesis w) : w.state.Sound := by
  refine ⟨fun id v hv => ?_, fun id rs hrs => ?_, fun id v hv => ?_⟩
  · simp [h.vault] at hv
  · simp [h.get (k := .beneficiaryRotationSchedule id) (by simp)] at hrs
  · simp [h.vault] at hv

/-- The invariant holds along every run. -/
theorem Reachable.sound {w : World} (h : Reachable w) : w.state.Sound :=
  reachable_invariant h (fun _ h => h.sound) (fun hnum hs => exec_sound hnum hs)
    fun _ hs => ⟨hs.heirs, hs.rotations, hs.settings⟩

end Invariant

/-! ## Payouts -/

/-- The claims that run over the list of heirs of vault `id`. -/
def VestingCall.PaysHeirs (id : Nat) : VestingCall → Prop
  | .claimVestedInstallment i | .claimCatchupVesting i | .claimWithBonus i
  | .claimMilestoneInstallments i => i = id
  | _ => False

/-- The vault was debited with `amount`, and the heirs of its list have got it: nobody less
than the rounded part, nothing negative and nothing left over. -/
def PaidInFull (v : Vault) (amount : Int) (s t : State) : Prop :=
  ∃ shares : List Int,
    List.Forall₂ (fun (entry : BeneficiaryEntry) x =>
      0 ≤ x ∧ Split.part amount 10000 entry.bps ≤ x) v.beneficiaries shares ∧
    shares.sum = amount ∧
    t.ledger.log = s.ledger.log ++
      paymentLog v.tokenAddress ((v.beneficiaries.map (·.address)).zip shares)

/-- The milestone schedules are as `set_milestone_vesting` makes them and claims leave them,
unless the vault was overdrawn when they were made. -/
def State.MilestonesSound (s : State) : Prop :=
  ∀ id ms, s.get (.milestoneVestingSchedule id) = some ms → 0 ≤ ms.totalAmount → ms.Sound

section Payouts

variable {e : Env} {s t : State} {c : Call} {o : VestingCall} {id : Nat} {v w : Vault}
  {amount : Int} {areas : List Area}

theorem VestingCall.Evolves.total {ms ms' : MilestoneVestingSchedule} (h : o.Evolves ms ms') :
    ms'.totalAmount = ms.totalAmount := by
  cases o with
  | pauseMilestoneVesting | resumeMilestoneVesting =>
      obtain rfl := h
      rfl
  | adjustMilestoneTargets | emergencyFulfillMilestones =>
      obtain ⟨l, _, rfl⟩ := h
      rfl
  | reportMilestoneProgress =>
      obtain ⟨_, l, _, rfl⟩ := h
      rfl
  | claimMilestoneInstallments =>
      obtain ⟨_, rfl⟩ := h
      rfl
  | _ => exact h.elim

theorem VestingCall.Evolves.sound {ms ms' : MilestoneVestingSchedule} (h : o.Evolves ms ms')
    (hms : ms.Sound) : ms'.Sound := by
  cases o with
  | pauseMilestoneVesting | resumeMilestoneVesting =>
      obtain rfl := h
      exact ⟨hms.total, hms.bps, hms.claimed⟩
  | adjustMilestoneTargets | emergencyFulfillMilestones =>
      obtain ⟨l, hl, rfl⟩ := h
      exact hms.congr (hl.map_eq fun _ _ => rfl)
  | reportMilestoneProgress =>
      obtain ⟨_, l, hl, rfl⟩ := h
      refine hms.congr (hl.map_eq fun r m => ?_)
      simp only [MilestoneEntry.progress]
      split <;> rfl
  | claimMilestoneInstallments =>
      obtain ⟨_, rfl⟩ := h
      exact hms.afterClaim
  | _ => exact h.elim

theorem exec_milestonesSound (hnum : s.Numbered) (hs : s.MilestonesSound) :
    wp (exec c) (fun _ t => t.MilestonesSound) e s := by
  intro _ t hexec id ms' hms' htotal
  obtain hsame | ⟨o, -, hstep⟩ := exec_milestones id hnum _ _ hexec
  · exact hs id ms' (hsame ▸ hms') htotal
  cases hstep with
  | set _ _ _ hbps _ hget =>
      obtain rfl := Option.some.inj (hget.symm.trans hms')
      exact ⟨htotal, hbps, fun _ => MilestoneVestingSchedule.worth_nonneg htotal⟩
  | evolve _ hms hget hevolves =>
      obtain rfl := Option.some.inj (hget.symm.trans hms')
      exact hevolves.sound (hs id _ hms (hevolves.total ▸ htotal))

theorem Reachable.milestonesSound {w : World} (h : Reachable w) : w.state.MilestonesSound :=
  reachable_invariant (I := State.MilestonesSound) h
    (fun w hw id ms hms => by simp [hw.get (k := .milestoneVestingSchedule id) (by simp)] at hms)
    exec_milestonesSound fun _ hs => hs

/-- No penalty takes more than the whole of an installment that is claimed late. -/
def State.PenaltiesSound (s : State) : Prop :=
  ∀ id p, s.get (.vestingPenalty id 0) = some p → p.penaltyBps ≤ 10000

theorem exec_penaltiesSound (hnum : s.Numbered) (hs : s.PenaltiesSound) :
    wp (exec c) (fun _ t => t.PenaltiesSound) e s := by
  by_cases harea : .penalties ∈ (c.footprint s).areas
  swap
  · refine Tx.wp_mono (exec_frame c hnum) fun _ t ht id p hp => ?_
    rw [ht.get_of_area (by simpa using harea)] at hp
    exact hs id p hp
  obtain ⟨o, rfl⟩ := Call.schedules_writer (.inr (.inr (.inr harea)))
  cases o with
  | setVestingPenalty i a bps grace =>
      simp only [exec, execVesting, setVestingPenalty, Tx.wp_bind, wp_requireAuth, wp_loadVault,
        wp_require, wp_storageGet, wp_storageSet]
      intro _ _ _ _ _ hbps id p hp
      by_cases hid : id = i
      · subst hid
        obtain rfl : _ = p := by simpa using hp
        exact hbps.2
      · exact hs id p (by simpa [hid] using hp)
  | _ => simp [Call.footprint, VestingCall.footprint] at harea

theorem Reachable.vestingSound {w : World} (h : Reachable w) (id : Nat) :
    w.state.VestingSound id := by
  refine ⟨(plainVesting_of_reachable h).total id, ?_⟩
  have hpenalties : w.state.PenaltiesSound :=
    reachable_invariant (I := State.PenaltiesSound) h
      (fun w hw id p hp => by simp [hw.get (k := .vestingPenalty id 0) (by simp)] at hp)
      exec_penaltiesSound fun _ hs => hs
  exact hpenalties id

/-- A claim that is not negative is paid in full. -/
theorem Claims.paidInFull (h : Claims areas id v amount s t) (hne : v.beneficiaries ≠ [])
    (hbps : totalBps v.beneficiaries ≤ 10000) (hamount : 0 ≤ amount) : PaidInFull v amount s t := by
  have hsum : ((v.beneficiaries.map (·.bps)).sum : Nat) ≤ (10000 : Int) := by exact_mod_cast hbps
  refine ⟨Split.shares amount 10000 amount (v.beneficiaries.map (·.bps)), ?_, ?_, ?_⟩
  · have hfloor := Split.floor_le_shares hamount (by decide : (0 : Int) < 10000) hsum
    refine (List.forall₂_map_left_iff.mp hfloor).imp fun entry x hx => ⟨?_, hx⟩
    exact (Split.part_nonneg hamount (by decide)).trans hx
  · exact Split.sum_shares (by simpa using hne)
  · rw [h.transacts.ledger, TokenLedger.Ledger.log_transferAll, Vault.heirsLog, if_neg hne]
    rfl

/-- Heirs cannot be paid a negative amount. -/
theorem PaidInFull.nonneg (h : PaidInFull v amount s t) : 0 ≤ amount := by
  obtain ⟨shares, hshares, rfl, -⟩ := h
  refine List.sum_nonneg fun x hx => ?_
  obtain ⟨i, hi, rfl⟩ := List.mem_iff_getElem.mp hx
  have hlength := hshares.length_eq
  exact ((List.forall₂_iff_get.mp hshares).2 i (by omega) hi).1

/-- What a claim of an heir's vault does. -/
theorem exec_paysHeirs (ho : o.PaysHeirs id) :
    wp (exec (.vesting o)) (fun _ t => ∃ v areas amount, Claims areas id v amount s t ∧
      ((0 ≤ v.balance → s.VestingSound id → 0 ≤ amount) ∧ o.ClaimsFrom id ∨
        ∃ ms, o = .claimMilestoneInstallments id ∧
          s.get (.milestoneVestingSchedule id) = some ms ∧ amount = ms.due)) e s := by
  cases o with
  | claimVestedInstallment i =>
      obtain rfl : i = id := ho
      simp only [exec, execVesting, Tx.wp_bind, Tx.wp_pure]
      refine Tx.wp_mono claimVestedInstallment_spec ?_
      rintro amount t ⟨v, h⟩
      exact ⟨v, _, amount, h.toClaims, .inl ⟨h.nonneg, rfl⟩⟩
  | claimCatchupVesting i =>
      obtain rfl : i = id := ho
      simp only [exec, execVesting, Tx.wp_bind, Tx.wp_pure]
      refine Tx.wp_mono claimCatchupVesting_spec ?_
      rintro amount t ⟨v, h⟩
      exact ⟨v, _, amount, h.toClaims, .inl ⟨h.nonneg, rfl⟩⟩
  | claimWithBonus i =>
      obtain rfl : i = id := ho
      simp only [exec, execVesting, Tx.wp_bind, Tx.wp_pure]
      refine Tx.wp_mono claimWithBonus_spec ?_
      rintro amount t ⟨v, h⟩
      exact ⟨v, _, amount, h.toClaims, .inl ⟨h.nonneg, rfl⟩⟩
  | claimMilestoneInstallments i =>
      obtain rfl : i = id := ho
      simp only [exec, execVesting, Tx.wp_bind, Tx.wp_pure]
      refine Tx.wp_mono claimMilestoneInstallments_spec ?_
      rintro amount t ⟨v, ms, h, hms, hdue, _⟩
      exact ⟨v, _, amount, h, .inr ⟨ms, trivial, hms, hdue⟩⟩
  | _ => exact ho.elim

end Payouts

/-- What a claim of vault `id` needs to find: no overdrawn vault, and no milestone schedule that
was made for one. -/
def State.InFunds (s : State) (id : Nat) (v : Vault) : VestingCall → Prop
  | .claimMilestoneInstallments _ =>
      ∀ ms, s.get (.milestoneVestingSchedule id) = some ms → 0 ≤ ms.totalAmount
  | _ => 0 ≤ v.balance

/-- In every reachable state the lists of heirs give away at most the whole, and the payout loop
has no overflow on amounts whose product with the whole fits into `i128`. A claim pays the heirs
on the list in full if the vault is in funds, and a claim of installments only then. -/
theorem heirs_paid_in_full {w : World} (hw : Reachable w) :
    (∀ id v, w.state.vault id = some v → totalBps v.beneficiaries ≤ 10000 ∧
      ∀ amount, 0 ≤ amount → amount * 10000 ≤ i128Max →
        payShares v.tokenAddress amount 10000 0 v.beneficiaries =
          payEach v.tokenAddress (splitPayments amount 10000 amount v.beneficiaries)) ∧
    ∀ id v e o w' v', o.PaysHeirs id → w.state.vault id = some v → v.beneficiaries ≠ [] →
      Step w (.call e (.vesting o)) w' → w'.state.vault id = some v' →
        (w.state.InFunds id v o → PaidInFull v (v.balance - v'.balance) w.state w'.state) ∧
        (o.ClaimsFrom id → PaidInFull v (v.balance - v'.balance) w.state w'.state →
          w.state.InFunds id v o) := by
  have hsound := hw.sound
  refine ⟨fun id v hv => ⟨hsound.heirs id v hv, fun amount ha hmax =>
    payShares_eq_payEach ha hmax (by decide) le_rfl (by exact_mod_cast hsound.heirs id v hv)⟩, ?_⟩
  intro id v e o w' v' ho hv hne hstep hv'
  cases hstep with
  | call _ hexec =>
      obtain ⟨u, areas, amount, hclaims, hcase⟩ := exec_paysHeirs ho _ _ hexec
      obtain rfl : u = v := by simpa [hv] using hclaims.transacts.before.symm
      obtain rfl : u.withBalance (u.balance - amount) = v' := by
        simpa [hclaims.transacts.after] using hv'
      have hdebit : u.balance - (u.withBalance (u.balance - amount)).balance = amount := by simp
      rw [hdebit]
      have hfull := fun h => hclaims.paidInFull hne (hsound.heirs id u hv) h
      obtain ⟨hnonneg, hfrom⟩ | ⟨ms, rfl, hms, rfl⟩ := hcase
      · have hfunds : w.state.InFunds id u o ↔ 0 ≤ u.balance := by
          cases o <;> first | exact hfrom.elim | exact Iff.rfl
        refine ⟨fun h => hfull (hnonneg (hfunds.mp h) (hw.vestingSound id)), fun _ h => ?_⟩
        exact hfunds.mpr (h.nonneg.trans hclaims.covered)
      · refine ⟨fun h => hfull ?_, fun h => h.elim⟩
        exact (hw.milestonesSound id ms hms (h ms hms)).due_nonneg

/-- Two heirs of unequal parts share the last installment. -/
theorem heirs_paid_in_full_by_thirds : ∃ (w w' : World) (v v' : Vault), Reachable w ∧
    w.state.vault 1 = some v ∧ w'.state.vault 1 = some v' ∧ v.balance - v'.balance = 100 ∧
      PaidInFull v (v.balance - v'.balance) w.state w'.state := by
  have hplay : (play (initialised ⟨8⟩ ⟨9⟩)
      [opensVault 100, paysIn 100,
        (signedBy [⟨1⟩] 0, .heir (.setBeneficiaries 1 ⟨1⟩ [⟨⟨3⟩, 3333, 0⟩, ⟨⟨4⟩, 6667, 0⟩])),
        (signedBy [⟨1⟩] 0, .vesting (.setVestingSchedule 1 ⟨1⟩ 10 10 1 100 0)),
        (signedBy [⟨7⟩] 100, .release (.triggerRelease 1))]).any
      (fun w => (w.state.vault 1).any (fun v => v.balance = 100 ∧ v.beneficiaries ≠ []) ∧
        (play w [(signedBy [⟨7⟩] 200, .vesting (.claimVestedInstallment 1))]).any
          fun w' => (w'.state.vault 1).any fun v' => v'.balance = 0) = true := by decide +kernel
  obtain ⟨w, hw, hchecks⟩ := (Option.any_eq_true _ _).mp hplay
  simp only [decide_eq_true_eq, Option.any_eq_true] at hchecks
  obtain ⟨⟨v, hv, hbalance, hne⟩, w', hw', v', hv', hzero⟩ := hchecks
  refine ⟨w, w', v, v', reachable_of_play hw, hv, hv', by omega, ?_⟩
  have hpays : VestingCall.PaysHeirs 1 (.claimVestedInstallment 1) := rfl
  have hfunds : w.state.InFunds 1 v (.claimVestedInstallment 1) := by
    show 0 ≤ v.balance
    omega
  exact ((heirs_paid_in_full (reachable_of_play hw)).2 1 v _ _ w' v' hpays hv hne
    (step_of_play hw') hv').1 hfunds

/-- An escrow is paid out of a vault that no longer has the money. The claim that follows takes
a negative amount, and the heirs get nothing. -/
theorem overdrawn_vault_pays_no_heirs : ¬ ∀ (w w' : World) (v v' : Vault) (e : Env)
    (o : VestingCall) (id : Nat), Reachable w → o.PaysHeirs id → w.state.vault id = some v →
      v.beneficiaries ≠ [] → Step w (.call e (.vesting o)) w' → w'.state.vault id = some v' →
        PaidInFull v (v.balance - v'.balance) w.state w'.state := by
  have hplay : (play (initialised ⟨8⟩ ⟨9⟩)
      [opensVault 100, paysIn 100,
        (signedBy [⟨5⟩] 0, .vault (.createVault ⟨5⟩ ⟨2⟩ 100 none)),
        (signedBy [⟨5⟩] 0, .vault (.deposit 2 ⟨5⟩ 100)),
        (signedBy [⟨1⟩] 0, .heir (.setBeneficiaries 1 ⟨1⟩ [⟨⟨3⟩, 5000, 0⟩, ⟨⟨4⟩, 5000, 0⟩])),
        (signedBy [⟨1⟩] 0, .vesting (.setVestingSchedule 1 ⟨1⟩ 10 10 1 100 0)),
        (signedBy [⟨1⟩] 0, .withdrawal (.createWithdrawalEscrow 1 100 ⟨6⟩ ⟨1⟩)),
        (signedBy [⟨1⟩] 0, .withdrawal (.withdraw 1 ⟨1⟩ 60)),
        (signedBy [⟨6⟩] 0, .withdrawal (.verifyWithdrawalEscrow 1 ⟨6⟩)),
        (signedBy [⟨7⟩] 100, .release (.triggerRelease 1))]).any
      (fun w => (w.state.vault 1).any (fun v => v.balance = -60 ∧ v.beneficiaries ≠ []) ∧
        (play w [(signedBy [⟨7⟩] 200, .vesting (.claimVestedInstallment 1))]).any
          fun w' => (w'.state.vault 1).any fun v' => v'.balance = 0) = true := by decide +kernel
  obtain ⟨w, hw, hchecks⟩ := (Option.any_eq_true _ _).mp hplay
  simp only [decide_eq_true_eq, Option.any_eq_true] at hchecks
  obtain ⟨⟨v, hv, hbalance, hne⟩, w', hw', v', hv', hzero⟩ := hchecks
  intro h
  have hpays : VestingCall.PaysHeirs 1 (.claimVestedInstallment 1) := rfl
  have := (h w w' v v' _ _ 1 (reachable_of_play hw) hpays hv hne (step_of_play hw') hv').nonneg
  omega

end Heirloom
