import Heirloom.Sbt.Metadata

/-!
# Tokens that are held

A token is held while it is in an escrow that has not been released, or divided among
holders. A transfer looks at neither, a recovery looks at the fractions only, and the
release of a single escrow does not look at whether it has been released.

Results:
1. `held_tokens_stay`: in every run in which held tokens are not given to others and
   released escrows are not released again, the owner of a held token stays, and an
   escrow is released once and by its agent; a step keeps this exactly if it is such a
   step. The single and the batch release agree on distinct ids exactly if no escrow has
   been released, or one of them cannot be released at all.
2. `held_tokens_move`: an escrowed token transferred and an escrow released twice.
-/

namespace Heirloom.Sbt

open Transaction TypedStore Runs

/-- The token is in an escrow that has not been released. -/
def Escrowed (s : State) (id : Nat) : Prop :=
  ∃ record, s.get (.escrow id) = some record ∧ record.released = false

/-- The token is in an escrow, or divided. -/
def Held (s : State) (id : Nat) : Prop := Escrowed s id ∨ s.get (.fractionalOwnership id) ≠ none

/-- The call releases the escrow of the token. -/
def Call.Releases (id : Nat) : Call → Prop
  | .releaseSbtFromEscrow id' _ => id = id'
  | .atomicReleaseCredentials credentialIds => id ∈ credentialIds
  | _ => False

instance (id : Nat) : DecidablePred (Call.Releases id) := fun c => by
  cases c <;> unfold Call.Releases <;> infer_instance

/-- The step moves no token that is held, and releases only what is in escrow, with the
signature of its agent. -/
structure Stays (s : State) (k : Env × Call) (t : State) : Prop where
  owner : ∀ id, Held s id → t.get (.owner id) = s.get (.owner id)
  released : ∀ id, k.2.Releases id → ∃ record, s.get (.escrow id) = some record ∧
    record.released = false ∧ k.1.authorized record.escrowAgent = true ∧
    t.get (.escrow id) = some { record with released := true }

/-- The steps that keep held tokens: a transfer or a recovery gives a held token to its
owner only, and a single release is of an escrow that has not been released. -/
def KeepsHeld (s : State) (k : Env × Call) : Prop :=
  match k.2 with
  | .batchTransferSbtConditional ids transfers =>
      ∀ id recipient, destination (ids.zip transfers) id = some recipient →
        Held s id → s.get (.owner id) = some recipient
  | .recoverSbtWithRecoveryCode id code newHolder =>
      ∀ codes, s.get (.recoveryCodes id) = some codes → k.1.sha256 code ∈ codes →
        Escrowed s id → s.get (.owner id) = some newHolder
  | .releaseSbtFromEscrow id _ => Escrowed s id
  | _ => True

/-- The single releases of a list of tokens, one after the other. -/
def releaseEach (ids : List Nat) (proof : Bytes) : Contract Unit :=
  Tx.forEach ids fun id => releaseSbtFromEscrow id proof

/-- The escrow of the token has been released, if there is one. -/
def releasedAt (s : State) (id : Nat) : State :=
  match s.get (.escrow id) with
  | some record => s.put (.escrow id) { record with released := true }
  | none => s

section Releases

variable {e : Env} {s t u : State} {id id' : Nat} {ids : List Nat} {proof : Bytes}
  {record : EscrowRecord} {batch : ReleaseBatch}

/-- The escrow of the token can be released by this call. -/
def Releasable (e : Env) (s : State) (id : Nat) : Prop :=
  ∃ record, s.get (.escrow id) = some record ∧ e.authorized record.escrowAgent = true

theorem releasedAt_of_record (h : s.get (.escrow id) = some record) :
    releasedAt s id = s.put (.escrow id) { record with released := true } := by
  rw [releasedAt, h]

theorem releasedAt_of_none (h : s.get (.escrow id) = none) : releasedAt s id = s := by
  rw [releasedAt, h]

theorem get_escrow_releasedAt : (releasedAt s id).get (.escrow id') =
    if id' = id then (s.get (.escrow id)).map fun record => { record with released := true }
    else s.get (.escrow id') := by
  cases hrecord : s.get (.escrow id) with
  | none =>
      rw [releasedAt_of_none hrecord]
      split
      · next heq => rw [heq, hrecord, Option.map_none]
      · rfl
  | some record =>
      rw [releasedAt_of_record hrecord]
      split
      · next heq => rw [heq, Store.get_put_self, Option.map_some]
      · next hne => simp [hne]

theorem releasable_releasedAt : Releasable e (releasedAt s id) id' ↔ Releasable e s id' := by
  unfold Releasable
  rw [get_escrow_releasedAt]
  split
  · next heq =>
    subst heq
    cases s.get (.escrow id') <;> simp
  · exact Iff.rfl

theorem releaseSbtFromEscrow_ok {v : Unit} :
    releaseSbtFromEscrow id proof e s = .ok (v, t) ↔
      Releasable e s id ∧ proof ≠ [] ∧ t = releasedAt s id := by
  simp only [releaseSbtFromEscrow, Tx.ok_bind, ok_load, Tx.ok_fromSome, ok_requireAuth,
    Tx.ok_ensure, ok_save]
  constructor
  · rintro ⟨_, _, ⟨rfl, rfl⟩, record, _, ⟨hrecord, rfl⟩, _, _, ⟨hauth, rfl⟩, _, _,
      ⟨hproof, rfl⟩, rfl⟩
    exact ⟨⟨record, hrecord, hauth⟩, hproof, (releasedAt_of_record hrecord).symm⟩
  · rintro ⟨⟨record, hrecord, hauth⟩, hproof, rfl⟩
    exact ⟨_, s, ⟨rfl, rfl⟩, record, s, ⟨hrecord, rfl⟩, (), s, ⟨hauth, rfl⟩, (), s, ⟨hproof, rfl⟩,
      (releasedAt_of_record hrecord).symm⟩

/-- Single releases need every escrow and its agent, and nothing else. -/
theorem releaseEach_ok (hproof : proof ≠ []) {v : Unit} :
    releaseEach ids proof e s = .ok (v, t) ↔
      (∀ id ∈ ids, Releasable e s id) ∧ t = ids.foldl releasedAt s := by
  unfold releaseEach
  induction ids generalizing s with
  | nil =>
      rw [Tx.forEach, Tx.ok_pure]
      simp [eq_comm]
  | cons id ids ih =>
      rw [Tx.forEach, Tx.ok_bind, List.forall_mem_cons, List.foldl_cons]
      constructor
      · rintro ⟨_, u, hfirst, hrest⟩
        obtain ⟨hreleasable, -, rfl⟩ := releaseSbtFromEscrow_ok.mp hfirst
        obtain ⟨hothers, ht⟩ := ih.mp hrest
        exact ⟨⟨hreleasable, fun x hx => releasable_releasedAt.mp (hothers x hx)⟩, ht⟩
      · rintro ⟨⟨hreleasable, hothers⟩, ht⟩
        refine ⟨(), _, releaseSbtFromEscrow_ok.mpr ⟨hreleasable, hproof, rfl⟩, ?_⟩
        exact ih.mpr ⟨fun x hx => releasable_releasedAt.mpr (hothers x hx), ht⟩

/-- The records of the tokens, in their order. -/
def recordsOf (s : State) (ids : List Nat) : List EscrowRecord :=
  ids.filterMap fun id => s.get (.escrow id)

/-- The batch after the validation of `ids`. -/
def ReleaseBatch.extend (s : State) (ids : List Nat) (batch : ReleaseBatch) : ReleaseBatch :=
  ⟨batch.seenIds ++ ids, batch.authorizedAgents ++ (recordsOf s ids).map (·.escrowAgent),
    batch.escrows ++ recordsOf s ids⟩

theorem recordsOf_singleton (h : s.get (.escrow id) = some record) :
    recordsOf s [id] = [record] := by
  simp [recordsOf, h]

theorem ReleaseBatch.extend_cons :
    batch.extend s (id :: ids) = (batch.extend s [id]).extend s ids := by
  cases h : s.get (.escrow id) <;> simp [ReleaseBatch.extend, recordsOf, h]

theorem validateRelease_ok {batch' : ReleaseBatch}
    (hagents : ∀ a ∈ batch.authorizedAgents, e.authorized a = true) :
    validateRelease batch id e s = .ok (batch', t) ↔
      (id ∉ batch.seenIds ∧ Releasable e s id ∧ Escrowed s id) ∧
        batch' = batch.extend s [id] ∧ t = s := by
  simp only [validateRelease, Tx.ok_bind, Tx.ok_ensure, ok_load, Tx.ok_fromSome, Tx.ok_onlyIf,
    ok_requireAuth, Tx.ok_pure]
  constructor
  · rintro ⟨_, _, ⟨hnew, rfl⟩, _, _, ⟨rfl, rfl⟩, record, _, ⟨hrecord, rfl⟩, _, _, ⟨hopen, rfl⟩, _,
      u, hasked, rfl, rfl⟩
    have hsigned : e.authorized record.escrowAgent = true ∧ s = u := by
      rcases hasked with ⟨-, hauth, heq⟩ | ⟨hknown, heq⟩
      · exact ⟨hauth, heq⟩
      · exact ⟨hagents _ (Decidable.not_not.mp hknown), heq⟩
    obtain ⟨hauth, rfl⟩ := hsigned
    refine ⟨⟨hnew, ⟨record, hrecord, hauth⟩, record, hrecord, hopen⟩, ?_, rfl⟩
    rw [ReleaseBatch.extend, recordsOf_singleton hrecord]
    rfl
  · rintro ⟨⟨hnew, ⟨record, hrecord, hauth⟩, record', hrecord', hopen⟩, rfl, rfl⟩
    obtain rfl := Option.some.inj (hrecord.symm.trans hrecord')
    refine ⟨(), t, ⟨hnew, rfl⟩, _, t, ⟨rfl, rfl⟩, record, t, ⟨hrecord, rfl⟩, (), t,
      ⟨hopen, rfl⟩, (), t, ?_, ?_, rfl⟩
    · by_cases hknown : record.escrowAgent ∈ batch.authorizedAgents
      · exact .inr ⟨not_not_intro hknown, rfl⟩
      · exact .inl ⟨hknown, hauth, rfl⟩
    · rw [ReleaseBatch.extend, recordsOf_singleton hrecord]
      rfl

/-- The validation passes exactly on a list of different escrows, none of them released,
whose agents have signed. -/
theorem validateReleases_ok {batch' : ReleaseBatch}
    (hagents : ∀ a ∈ batch.authorizedAgents, e.authorized a = true) :
    Tx.foldEach ids batch validateRelease e s = .ok (batch', t) ↔
      (ids.Nodup ∧ batch.seenIds.Disjoint ids ∧ ∀ id ∈ ids, Releasable e s id ∧ Escrowed s id) ∧
        batch' = batch.extend s ids ∧ t = s := by
  induction ids generalizing batch with
  | nil =>
      rw [Tx.foldEach, Tx.ok_pure]
      simp [ReleaseBatch.extend, recordsOf, eq_comm]
  | cons id ids ih =>
      have hagents' : Releasable e s id →
          ∀ a ∈ (batch.extend s [id]).authorizedAgents, e.authorized a = true := by
        rintro ⟨record, hrecord, hauth⟩ a ha
        rw [ReleaseBatch.extend, recordsOf_singleton hrecord] at ha
        rcases List.mem_append.mp ha with hold | hlast
        · exact hagents a hold
        · obtain rfl := List.mem_singleton.mp hlast
          exact hauth
      rw [Tx.foldEach, Tx.ok_bind, List.nodup_cons, List.disjoint_cons_right,
        List.forall_mem_cons, ReleaseBatch.extend_cons]
      constructor
      · rintro ⟨batch₁, u, hround, hrest⟩
        obtain ⟨⟨hnew, hreleasable, hescrowed⟩, rfl, rfl⟩ := (validateRelease_ok hagents).mp hround
        obtain ⟨⟨hnodup, hdisjoint, hids⟩, hbatch, ht⟩ := (ih (hagents' hreleasable)).mp hrest
        obtain ⟨hseen, hid⟩ := List.disjoint_append_left.mp hdisjoint
        exact ⟨⟨⟨List.singleton_disjoint.mp hid, hnodup⟩, ⟨hnew, hseen⟩,
          ⟨hreleasable, hescrowed⟩, hids⟩, hbatch, ht⟩
      · rintro ⟨⟨⟨hid, hnodup⟩, ⟨hnew, hseen⟩, ⟨hreleasable, hescrowed⟩, hids⟩, hbatch, ht⟩
        have hround := (validateRelease_ok hagents).mpr ⟨⟨hnew, hreleasable, hescrowed⟩, rfl, rfl⟩
        refine ⟨_, s, hround, ?_⟩
        refine (ih (hagents' hreleasable)).mpr ⟨⟨hnodup, ?_, hids⟩, hbatch, ht⟩
        exact List.disjoint_append_left.mpr ⟨hseen, List.singleton_disjoint.mpr hid⟩

/-- Every record is kept under the token that it names. -/
def Tagged (s : State) : Prop := ∀ id record, s.get (.escrow id) = some record → record.sbtId = id

theorem recordsOf_releasedAt (hid : id ∉ ids) :
    recordsOf (releasedAt s id) ids = recordsOf s ids := by
  unfold recordsOf
  refine List.filterMap_congr fun x hx => ?_
  have hne : x ≠ id := fun heq => hid (heq ▸ hx)
  rw [get_escrow_releasedAt, if_neg hne]

theorem tagged_releasedAt (hs : Tagged s) : Tagged (releasedAt s id) := by
  intro x record hrecord
  rw [get_escrow_releasedAt] at hrecord
  split at hrecord
  · next heq =>
    obtain ⟨record', hrecord', rfl⟩ := Option.map_eq_some_iff.mp hrecord
    rw [heq]
    exact hs id record' hrecord'
  · exact hs x record hrecord

/-- What the batch writes for one record. -/
def withReleased (s : State) (record : EscrowRecord) : State :=
  s.put (.escrow record.sbtId) { record with released := true }

theorem forEach_release_ok {records : List EscrowRecord} {v : Unit} :
    Tx.forEach records (fun escrow => storageSet (.escrow escrow.sbtId)
        { escrow with released := true }) e s = .ok (v, t) ↔
      t = records.foldl withReleased s := by
  induction records generalizing s with
  | nil =>
      rw [Tx.forEach, Tx.ok_pure]
      simp [eq_comm]
  | cons record records ih =>
      rw [Tx.forEach, Tx.ok_bind, List.foldl_cons]
      constructor
      · rintro ⟨_, u, hsave, hrest⟩
        obtain rfl := ok_save.mp hsave
        exact ih.mp hrest
      · intro ht
        exact ⟨(), _, ok_save.mpr rfl, ih.mpr ht⟩

/-- The writes of a batch are those of its single releases. -/
theorem foldl_records (hs : Tagged s) (hnodup : ids.Nodup) :
    (recordsOf s ids).foldl withReleased s = ids.foldl releasedAt s := by
  induction ids generalizing s with
  | nil => rfl
  | cons id ids ih =>
      obtain ⟨hid, hnodup'⟩ := List.nodup_cons.mp hnodup
      rw [List.foldl_cons, ← ih (tagged_releasedAt hs) hnodup', recordsOf_releasedAt hid]
      cases hrecord : s.get (.escrow id) with
      | none =>
          rw [releasedAt_of_none hrecord, recordsOf, List.filterMap_cons_none hrecord, recordsOf]
      | some record =>
          rw [releasedAt_of_record hrecord, recordsOf, List.filterMap_cons_some hrecord,
            List.foldl_cons, withReleased, hs id record hrecord, recordsOf]

/-- A batch is accepted if its tokens differ, none of their escrows has been released and
their agents have signed; it then does what the single releases do. -/
theorem atomicReleaseCredentials_ok (hs : Tagged s) :
    (∃ bs, atomicReleaseCredentials ids e s = .ok (bs, t)) ↔
      (ids ≠ [] ∧ ids.Nodup ∧ ∀ id ∈ ids, Releasable e s id ∧ Escrowed s id) ∧
        t = ids.foldl releasedAt s := by
  have hfirst : ∀ a ∈ (⟨[], [], []⟩ : ReleaseBatch).authorizedAgents, e.authorized a = true :=
    fun a ha => absurd ha List.not_mem_nil
  have hnew : (ReleaseBatch.extend s ids ⟨[], [], []⟩).escrows = recordsOf s ids := rfl
  simp only [atomicReleaseCredentials, Tx.ok_bind, Tx.ok_ensure, Tx.ok_pure,
    validateReleases_ok hfirst, forEach_release_ok]
  constructor
  · rintro ⟨_, _, _, ⟨hfull, rfl⟩, _, _, ⟨⟨hnodup, -, hids⟩, rfl, rfl⟩, _, _, rfl, -, rfl⟩
    rw [hnew, foldl_records hs hnodup]
    exact ⟨⟨hfull, hnodup, hids⟩, rfl⟩
  · rintro ⟨⟨hfull, hnodup, hids⟩, rfl⟩
    have hdisjoint : [].Disjoint ids := List.disjoint_nil_left ids
    refine ⟨_, (), s, ⟨hfull, rfl⟩, _, s, ⟨⟨hnodup, hdisjoint, hids⟩, rfl, rfl⟩, (), _, rfl, rfl, ?_⟩
    rw [hnew, foldl_records hs hnodup]

theorem get_escrow_foldl_releasedAt : (ids.foldl releasedAt s).get (.escrow id) =
    if id ∈ ids then (s.get (.escrow id)).map fun record => { record with released := true }
    else s.get (.escrow id) := by
  induction ids generalizing s with
  | nil => rfl
  | cons first ids ih =>
      rw [List.foldl_cons, ih, get_escrow_releasedAt]
      by_cases heq : id = first
      · subst heq
        cases s.get (.escrow id) <;> simp
      · simp [heq]

end Releases

/-! ## What a step does to an escrow -/

/-- What a call does to the escrow of a token. -/
inductive EscrowEffect (e : Env) (s t : State) (id : Nat) : Call → Prop
  | kept {c : Call} (hcall : ¬ c.Releases id) (h : t.get (.escrow id) = s.get (.escrow id)) :
      EscrowEffect e s t id c
  | placed {escrowAgent : Address} {conditions : Bytes} {record : EscrowRecord}
      (hnone : s.get (.escrow id) = none) (howned : s.get (.owner id) ≠ none)
      (h : t.get (.escrow id) = some record) (hid : record.sbtId = id)
      (hopen : record.released = false) :
      EscrowEffect e s t id (.escrowSbt id escrowAgent conditions)
  | released {c : Call} {record : EscrowRecord} (hcall : c.Releases id)
      (hrecord : s.get (.escrow id) = some record)
      (hauth : e.authorized record.escrowAgent = true)
      (h : t.get (.escrow id) = some { record with released := true }) :
      EscrowEffect e s t id c

section Steps

variable {e : Env} {s t : State} {c : Call} {k : Env × Call} {id : Nat} {ids : List Nat}
  {proof : Bytes}

theorem step_escrowSbt {escrowAgent : Address} {conditions : Bytes}
    (h : Step s (e, .escrowSbt id escrowAgent conditions) t) :
    s.get (.escrow id) = none ∧ s.get (.owner id) ≠ none ∧
      ∃ n escrowId, t = (s.put .nextEscrowId n).put (.escrow id)
        ⟨escrowId, id, escrowAgent, conditions, e.timestamp, false⟩ := by
  have hwp : wp (exec (.escrowSbt id escrowAgent conditions)) (fun _ t =>
      s.get (.escrow id) = none ∧ s.get (.owner id) ≠ none ∧
        ∃ n escrowId, t = (s.put .nextEscrowId n).put (.escrow id)
          ⟨escrowId, id, escrowAgent, conditions, e.timestamp, false⟩) e s := by
    simp only [exec, escrowSbt, Tx.wp_bind, Tx.wp_pure, wp_requireOwner, Tx.wp_ensure, Tx.wp_ask,
      wp_load, wp_save]
    intro owner howner _ hnone _
    exact ⟨hnone, by simp [howner], _, _, rfl⟩
  exact hwp () t h

theorem step_release (h : Step s (e, .releaseSbtFromEscrow id proof) t) :
    Releasable e s id ∧ t = releasedAt s id := by
  obtain ⟨hreleasable, -, ht⟩ := releaseSbtFromEscrow_ok.mp h
  exact ⟨hreleasable, ht⟩

theorem step_releases (hs : Tagged s) (h : Step s (e, .atomicReleaseCredentials ids) t) :
    (∀ id ∈ ids, Releasable e s id ∧ Escrowed s id) ∧ t = ids.foldl releasedAt s := by
  obtain ⟨bs, u, hrelease, hu⟩ := Tx.ok_bind.mp h
  obtain ⟨-, rfl⟩ := Tx.ok_pure.mp hu
  obtain ⟨⟨-, -, hids⟩, ht⟩ := (atomicReleaseCredentials_ok hs).mp ⟨bs, hrelease⟩
  exact ⟨hids, ht⟩

theorem step_escrow (id : Nat) (hs : Tagged s) (h : Step s (e, c) t) :
    EscrowEffect e s t id c := by
  cases c with
  | escrowSbt id' escrowAgent conditions =>
      obtain ⟨hnone, howned, n, escrowId, rfl⟩ := step_escrowSbt h
      by_cases heq : id = id'
      · subst heq
        exact .placed hnone howned Store.get_put_self rfl rfl
      · exact .kept (fun hcall => hcall) (by simp [heq])
  | releaseSbtFromEscrow id' proof =>
      obtain ⟨⟨record, hrecord, hauth⟩, rfl⟩ := step_release h
      by_cases heq : id = id'
      · subst heq
        exact .released rfl hrecord hauth
          (by rw [get_escrow_releasedAt, if_pos rfl, hrecord, Option.map_some])
      · exact .kept heq (by rw [get_escrow_releasedAt, if_neg heq])
  | atomicReleaseCredentials ids =>
      obtain ⟨hids, rfl⟩ := step_releases hs h
      by_cases hmem : id ∈ ids
      · obtain ⟨⟨record, hrecord, hauth⟩, -⟩ := hids id hmem
        exact .released hmem hrecord hauth
          (by rw [get_escrow_foldl_releasedAt, if_pos hmem, hrecord, Option.map_some])
      · exact .kept hmem (by rw [get_escrow_foldl_releasedAt, if_neg hmem])
  | _ => exact .kept (fun hcall => hcall) (h.get_eq (by simp [Call.areas]))

/-- A division comes from the owner. -/
theorem Step.divided (h : Step s (e, c) t) (ht : t.get (.fractionalOwnership id) ≠ none) :
    s.get (.fractionalOwnership id) ≠ none ∨ s.get (.owner id) ≠ none := by
  cases c with
  | createFractionalSbt id' holders fractions =>
      by_contra hneither
      obtain ⟨hwhole, hunowned⟩ := not_or.mp hneither
      have hwp : wp (exec (.createFractionalSbt id' holders fractions))
          (fun _ t => Store.get t (.fractionalOwnership id) = none) e s := by
        simp only [exec, createFractionalSbt, Tx.wp_bind, Tx.wp_pure, wp_requireOwner,
          Tx.wp_ensure, Tx.wp_ask, wp_save]
        intro owner howner _ _ _ _
        have hne : id ≠ id' := by
          rintro rfl
          exact hunowned (by simp [howner])
        refine Tx.wp_forEach
          (I := fun t : State => Store.get t (.fractionalOwnership id) = none) ?_ ?_
        · intro p _ t ht
          simpa [pushOwnershipHistory] using ht
        · simpa [hne] using hwhole
      exact ht (hwp () t h)
  | _ =>
      rw [h.get_eq (k := .fractionalOwnership id) (by simp [Call.areas])] at ht
      exact .inl ht

/-! ## What a run does to held tokens -/

/-- Only tokens are held, and every record is kept under the token that it names. -/
structure Holdings (s : State) : Prop where
  numbered : Numbered s
  tagged : Tagged s
  escrowed : ∀ id, s.get (.escrow id) ≠ none → s.get (.owner id) ≠ none
  divided : ∀ id, s.get (.fractionalOwnership id) ≠ none → s.get (.owner id) ≠ none

theorem Holdings.owned (hs : Holdings s) (h : Held s id) : s.get (.owner id) ≠ none := by
  rcases h with ⟨record, hrecord, -⟩ | hdivided
  · exact hs.escrowed id (by simp [hrecord])
  · exact hs.divided id hdivided

theorem Holdings.step (hs : Holdings s) (h : Step s k t) : Holdings t := by
  obtain ⟨e, c⟩ := k
  refine ⟨hs.numbered.step h, fun id record ht => ?_, fun id ht => ?_, fun id ht => ?_⟩
  · cases step_escrow id hs.tagged h with
    | kept _ hkept => exact hs.tagged id record (hkept ▸ ht)
    | placed _ _ hnew hid _ =>
        obtain rfl := Option.some.inj (hnew.symm.trans ht)
        exact hid
    | released _ hrecord _ hnew =>
        obtain rfl := Option.some.inj (hnew.symm.trans ht)
        have hid := hs.tagged id _ hrecord
        exact hid
  · refine h.owner_kept ?_
    cases step_escrow id hs.tagged h with
    | kept _ hkept => exact hs.escrowed id (hkept ▸ ht)
    | placed _ howned => exact howned
    | released _ hrecord => exact hs.escrowed id (by simp [hrecord])
  · refine h.owner_kept ?_
    rcases h.divided ht with hbefore | howned
    · exact hs.divided id hbefore
    · exact howned

theorem Reachable.holdings (h : Reachable s) : Holdings s := by
  obtain ⟨ks, hrun⟩ := h
  refine hrun.invariant ?_ fun _ _ _ => Holdings.step
  exact ⟨⟨by simp, by simp, by simp⟩, fun id record h => (by cases h), by simp, by simp⟩

/-- A step that keeps what is held releases only what is in escrow. -/
theorem KeepsHeld.escrowed (hs : Tagged s) (h : Step s (e, c) t) (hkeeps : KeepsHeld s (e, c))
    (hcall : c.Releases id) : Escrowed s id := by
  cases c with
  | releaseSbtFromEscrow id' proof =>
      obtain rfl : id = id' := hcall
      exact hkeeps
  | atomicReleaseCredentials ids => exact ((step_releases hs h).1 id hcall).2
  | _ => cases hcall

theorem KeepsHeld.stays (hs : Holdings s) (h : Step s k t) (hkeeps : KeepsHeld s k) :
    Stays s k t := by
  obtain ⟨e, c⟩ := k
  constructor
  · intro id hheld
    cases step_owner id h with
    | kept hkept => exact hkept
    | minted hid => exact absurd (hs.numbered.minted id hid.ge) (hs.owned hheld)
    | @transferred ids transfers owner recipient howner hsigned hto hnew =>
        rw [hnew, hkeeps id recipient hto hheld]
    | @recovered code newHolder hattempt hnew =>
        have hescrowed : Escrowed s id := hheld.resolve_right fun hdivided =>
          hdivided hattempt.undivided
        obtain ⟨codes, attempts, hcodes, ⟨hfalse, -⟩ | ⟨-, hmem, -⟩⟩ := hattempt.effect
        · cases hfalse
        · rw [hnew, hkeeps codes hcodes hmem hescrowed]
  · intro id hcall
    obtain ⟨record, hrecord, hopen⟩ := hkeeps.escrowed hs.tagged h hcall
    cases step_escrow id hs.tagged h with
    | kept hother => exact absurd hcall hother
    | placed hnone => cases hnone.symm.trans hrecord
    | released _ hrecord' hauth hnew =>
        obtain rfl := Option.some.inj (hrecord.symm.trans hrecord')
        exact ⟨record, hrecord, hopen, hauth, hnew⟩

theorem Stays.keepsHeld (h : Step s k t) (hstays : Stays s k t) : KeepsHeld s k := by
  obtain ⟨e, c⟩ := k
  cases c with
  | releaseSbtFromEscrow id proof =>
      obtain ⟨record, hrecord, hopen, -⟩ := hstays.released id rfl
      exact ⟨record, hrecord, hopen⟩
  | batchTransferSbtConditional ids transfers =>
      intro id recipient hto hheld
      rw [← hstays.owner id hheld]
      obtain ⟨rfl, -⟩ := batchTransferSbtConditional_wp () t h
      rw [get_owner_foldl_transferred, hto, Option.some_or]
  | recoverSbtWithRecoveryCode id code newHolder =>
      intro codes hcodes hmem hescrowed
      rw [← hstays.owner id (.inl hescrowed)]
      obtain ⟨b, hattempt⟩ := step_attempt h
      obtain ⟨codes', attempts, hcodes', ⟨-, hnew, -⟩ | ⟨-, -, rfl⟩⟩ := hattempt.effect
      · obtain rfl := Option.some.inj (hcodes.symm.trans hcodes')
        exact absurd hmem hnew
      · rw [get_owner_recovered, if_pos rfl]
  | _ => trivial

/-- The releases of a token in a history. -/
def releases (id : Nat) (ks : List (Env × Call)) : Nat :=
  ks.countP fun k => decide (k.2.Releases id)

theorem releases_cons {ks : List (Env × Call)} : releases id (k :: ks) =
    releases id ks + if k.2.Releases id then 1 else 0 := by
  simp [releases, List.countP_cons]

/-- What has been released once has a record that says so. -/
theorem released_of_run {ks : List (Env × Call)} (h : Run (Guarded Step KeepsHeld) .empty ks s) :
    Holdings s ∧ (releases id ks = 0 ∨ releases id ks = 1 ∧
      ∃ record, s.get (.escrow id) = some record ∧ record.released = true) := by
  refine h.invariantHistory (I := fun ks (s : State) => Holdings s ∧ (releases id ks = 0 ∨
    releases id ks = 1 ∧ ∃ record, s.get (.escrow id) = some record ∧ record.released = true))
    ⟨Reachable.holdings ⟨[], .start⟩, .inl rfl⟩ fun ks s k t hs hk => ⟨hs.1.step hk.1, ?_⟩
  obtain ⟨hholdings, hcount⟩ := hs
  obtain ⟨e, c⟩ := k
  rw [releases_cons]
  by_cases hcall : c.Releases id
  · obtain ⟨record, hrecord, hopen, -, hnew⟩ := (hk.2.stays hholdings hk.1).released id hcall
    rcases hcount with hzero | ⟨-, record', hrecord', hreleased⟩
    · exact .inr ⟨by simp [hzero, hcall], _, hnew, rfl⟩
    · obtain rfl := Option.some.inj (hrecord.symm.trans hrecord')
      cases hopen.symm.trans hreleased
  · rw [if_neg hcall, Nat.add_zero]
    refine hcount.imp_right fun ⟨hone, record, hrecord, hreleased⟩ => ⟨hone, ?_⟩
    cases step_escrow id hholdings.tagged hk.1 with
    | kept _ hkept => exact ⟨record, hkept.trans hrecord, hreleased⟩
    | placed hnone => cases hnone.symm.trans hrecord
    | released hcall' => exact absurd hcall' hcall

/-- The batch and the single releases agree on different tokens unless the single ones
would release again. -/
theorem releases_agree (hs : Tagged s) (hproof : proof ≠ []) (hnodup : ids.Nodup) :
    (∀ t, (∃ bs, atomicReleaseCredentials ids e s = .ok (bs, t)) ↔
        releaseEach ids proof e s = .ok ((), t)) ↔
      ids ≠ [] ∧ ((∀ id ∈ ids, Releasable e s id) → ∀ id ∈ ids, Escrowed s id) := by
  constructor
  · intro hagree
    constructor
    · rintro rfl
      obtain ⟨bs, hbatch⟩ := (hagree s).mpr rfl
      obtain ⟨⟨hfull, -⟩, -⟩ := (atomicReleaseCredentials_ok hs).mp ⟨bs, hbatch⟩
      exact hfull rfl
    · intro hreleasable id hid
      have hsingle := (releaseEach_ok (v := ()) hproof).mpr ⟨hreleasable, rfl⟩
      obtain ⟨⟨-, -, hids⟩, -⟩ := (atomicReleaseCredentials_ok hs).mp ((hagree _).mpr hsingle)
      exact (hids id hid).2
  · rintro ⟨hfull, hescrowed⟩ t
    rw [atomicReleaseCredentials_ok hs, releaseEach_ok hproof]
    constructor
    · rintro ⟨⟨-, -, hids⟩, ht⟩
      exact ⟨fun id hid => (hids id hid).1, ht⟩
    · rintro ⟨hreleasable, ht⟩
      exact ⟨⟨hfull, hnodup, fun id hid => ⟨hreleasable id hid, hescrowed hreleasable id hid⟩⟩, ht⟩

/-- In every run that keeps what is held, the owner of a held token stays and an escrow is
released once, by its agent; a step does so exactly if it keeps what is held. The batch
and the single releases of different tokens agree unless the single ones would release
again. -/
theorem held_tokens_stay (s : State) :
    (∀ ks, Run (Guarded Step KeepsHeld) .empty ks s →
      (∀ id, releases id ks ≤ 1) ∧ ∀ k t, Guarded Step KeepsHeld s k t → Stays s k t) ∧
    (∀ k t, Reachable s → Step s k t → (Stays s k t ↔ KeepsHeld s k)) ∧
    ∀ e ids proof, Reachable s → proof ≠ [] → ids.Nodup →
      ((∀ t, (∃ bs, atomicReleaseCredentials ids e s = .ok (bs, t)) ↔
          releaseEach ids proof e s = .ok ((), t)) ↔
        ids ≠ [] ∧ ((∀ id ∈ ids, Releasable e s id) → ∀ id ∈ ids, Escrowed s id)) := by
  refine ⟨fun ks hrun => ⟨fun id => ?_, fun k t hk => ?_⟩, fun k t hs hk => ?_,
    fun e ids proof hs hproof hnodup => ?_⟩
  · have hcount : releases id ks = 0 ∨ releases id ks = 1 ∧
        ∃ record, s.get (.escrow id) = some record ∧ record.released = true :=
      (released_of_run hrun).2
    rcases hcount with hzero | ⟨hone, -⟩
    · exact hzero.le.trans (Nat.zero_le 1)
    · exact hone.le
  · have hs : Reachable s := ⟨ks, hrun.unguard⟩
    exact hk.2.stays hs.holdings hk.1
  · exact ⟨fun hstays => hstays.keepsHeld hk, fun hkeeps => hkeeps.stays hs.holdings hk⟩
  · exact releases_agree hs.holdings.tagged hproof hnodup

end Steps

/-! ## A hold that does not hold -/

/-- Token 0 in escrow with agent 7. -/
def escrowedState : State :=
  ((tokensState 1).put .nextEscrowId 1).put (.escrow 0) ⟨0, 0, ⟨7⟩, [], 0, false⟩

/-- The escrow of token 0 has been released. -/
def unescrowedState : State := releasedAt escrowedState 0

theorem run_escrowedState : Run (Guarded Step KeepsHeld) .empty
    [(signed, .escrowSbt 0 ⟨7⟩ []), (signed, .mint ⟨9⟩ [65]), (signed, .initializeContract ⟨8⟩)]
    escrowedState := by
  have hinit : Step .empty (signed, .initializeContract ⟨8⟩) initialisedState := rfl
  have hmint : Step initialisedState (signed, .mint ⟨9⟩ [65]) (tokensState 1) := rfl
  have hescrow : Step (tokensState 1) (signed, .escrowSbt 0 ⟨7⟩ []) escrowedState := rfl
  exact ((Run.start.next ⟨hinit, trivial⟩).next ⟨hmint, trivial⟩).next ⟨hescrow, trivial⟩

theorem escrowed_escrowedState : Escrowed escrowedState 0 := ⟨_, rfl, rfl⟩

/-- The agent releases an escrow once, as a single release and as a batch alike. -/
theorem held_tokens_stay_run :
    releases 0 [(signed, .releaseSbtFromEscrow 0 [1]), (signed, .escrowSbt 0 ⟨7⟩ []),
        (signed, .mint ⟨9⟩ [65]), (signed, .initializeContract ⟨8⟩)] ≤ 1 ∧
      Stays escrowedState (signed, .releaseSbtFromEscrow 0 [1]) unescrowedState ∧
      ∀ t, (∃ bs, atomicReleaseCredentials [0] signed escrowedState = .ok (bs, t)) ↔
        releaseEach [0] [1] signed escrowedState = .ok ((), t) := by
  have hrelease : Step escrowedState (signed, .releaseSbtFromEscrow 0 [1]) unescrowedState := rfl
  have hkeeps : Guarded Step KeepsHeld escrowedState (signed, .releaseSbtFromEscrow 0 [1])
      unescrowedState := ⟨hrelease, escrowed_escrowedState⟩
  have hreachable : Reachable escrowedState := ⟨_, run_escrowedState.unguard⟩
  refine ⟨((held_tokens_stay _).1 _ (run_escrowedState.next hkeeps)).1 0,
    ((held_tokens_stay _).2.1 _ _ hreachable hrelease).mpr hkeeps.2, ?_⟩
  refine ((held_tokens_stay _).2.2 _ _ _ hreachable (by decide) (by decide)).mpr ⟨by decide, ?_⟩
  intro _ id hid
  obtain rfl := List.mem_singleton.mp hid
  exact escrowed_escrowedState

/-- A token in escrow is transferred; an escrow that has been released is released again
on its own, but not in a batch. -/
theorem held_tokens_move :
    Reachable escrowedState ∧ Escrowed escrowedState 0 ∧
      (∃ t, Step escrowedState (signed, .batchTransferSbtConditional [0] [⟨⟨5⟩, .always⟩]) t ∧
        t.get (.owner 0) = some ⟨5⟩ ∧ escrowedState.get (.owner 0) = some ⟨9⟩) ∧
      Step escrowedState (signed, .releaseSbtFromEscrow 0 [1]) unescrowedState ∧
      (∃ t, Step unescrowedState (signed, .releaseSbtFromEscrow 0 [1]) t) ∧
      ∀ bs t, atomicReleaseCredentials [0] signed unescrowedState ≠ .ok (bs, t) := by
  have htransfer : Step escrowedState
      (signed, .batchTransferSbtConditional [0] [⟨⟨5⟩, .always⟩])
      (transferred escrowedState (0, ⟨⟨5⟩, .always⟩)) := rfl
  have hrelease : Step escrowedState (signed, .releaseSbtFromEscrow 0 [1]) unescrowedState := rfl
  have hagain : Step unescrowedState (signed, .releaseSbtFromEscrow 0 [1])
      (releasedAt unescrowedState 0) := rfl
  have hrejected : atomicReleaseCredentials [0] signed unescrowedState =
      .error (.error .credentialAlreadyReleased) := rfl
  refine ⟨⟨_, run_escrowedState.unguard⟩, escrowed_escrowedState, ⟨_, htransfer, rfl, rfl⟩,
    hrelease, ⟨_, hagain⟩, fun bs t hbatch => ?_⟩
  cases hrejected.symm.trans hbatch

end Heirloom.Sbt
