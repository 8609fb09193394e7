import Heirloom.Verifier.Registry

/-!
# Verification after a dispute

An upheld dispute invalidates a credential for good. `verify_claim` looks at this,
and so does all that calls it; `verify_lattice_proof` and `verify_masked_proof`
read the record themselves and do not.

* `revoked_of_upheld`: once a dispute against a pair is upheld, the pair is revoked
  in every later state, whoever attests it again.
* `verifyConditionalProof_true`, `verifyAll_true`: what verifies on the strength of
  a pair.
* `invalidated_unverified_iff`: an invalidated pair is never verified again, and the
  five ways to verify agree, exactly if it is too short for a masked proof, or no
  registered oracle stands behind it, or it is neither invalidated nor too large.
* `upheld_lattice_verifies`: a run in which an invalidated pair is verified.
-/

namespace Heirloom.Verifier

open Transaction TypedStore Runs

/-- The call returns true. -/
def ReturnsTrue (m : Contract Bool) (e : Env) (s : State) : Prop := ∃ t, m e s = .ok (true, t)

/-- Nothing verifies on the strength of the pair. -/
structure Unverified (e : Env) (s : State) (proof claim : Bytes) : Prop where
  direct : ¬ ReturnsTrue (verifyClaim proof claim) e s
  lattice : ¬ ReturnsTrue (verifyLatticeProof proof claim) e s
  masked : ¬ ReturnsTrue (verifyMaskedProof proof claim) e s
  conditional : ∀ bytes condition bundle chosen, e.fromXdr bytes = some bundle →
    verifyInternal bundle.conditionProof condition e s = .ok (chosen, s) →
    ReturnsTrue (verifyConditionalProof bytes condition) e s →
    bundle.branch chosen ≠ (proof, claim) ∧
      (chosen = true → (bundle.conditionProof, condition) ≠ (proof, claim))
  consistent : ∀ proofs claims,
    ReturnsTrue (verifyCredentialsConsistent proofs claims) e s → (proof, claim) ∉ proofs.zip claims

/-- A dispute against the credential of the pair has been upheld. -/
def World.upheldAgainst (w : World) (proof claim : Bytes) : Prop :=
  ∃ id d, w.state.hashes id = some (w.sha256 proof, w.sha256 claim) ∧ w.state.disputed id .upheld d

section Calls

variable {e : Env} {s t : State} {k : Call} {proof claim : Bytes} {id : Nat}

theorem verifyClaim_true : ReturnsTrue (verifyClaim proof claim) e s ↔
    Fits proof claim ∧ s.vouched (e.sha256 proof) (e.sha256 claim) = true ∧
      s.revoked (e.sha256 proof) (e.sha256 claim) = false := by
  simp [ReturnsTrue, verifyClaim_ok]

theorem attestedBy_vouched {o : Option AttestationRecord} {b : Bool}
    (ho : s.attestation (e.sha256 proof) (e.sha256 claim) = o) :
    attestedBy o e s = .ok (b, t) ↔ s.vouched (e.sha256 proof) (e.sha256 claim) = b ∧ s = t := by
  cases o with
  | none => simp [attestedBy, State.vouched, ho]
  | some r => simp [attestedBy, State.vouched, ho]

theorem verifyMaskedProof_true : ReturnsTrue (verifyMaskedProof proof claim) e s ↔
    13 ≤ proof.length ∧ claim ≠ [] ∧ s.vouched (e.sha256 proof) (e.sha256 claim) = true := by
  simp only [ReturnsTrue, verifyMaskedProof, Tx.ok_bind, ok_require, ok_sha256, ok_load, Tx.ok_pure]
  constructor
  · rintro ⟨t, _, _, ⟨-, rfl⟩, _, _, ⟨hclaim, rfl⟩, _, _, ⟨hlen, rfl⟩, _, _, ⟨rfl, rfl⟩, _, _,
      ⟨rfl, rfl⟩, o, _, ⟨ho, rfl⟩, b, _, hb, _, _, ⟨htrue, rfl⟩, -, rfl⟩
    exact ⟨hlen, hclaim, ((attestedBy_vouched ho).mp hb).1.trans htrue⟩
  · rintro ⟨hlen, hclaim, hvouched⟩
    have hne : proof ≠ [] := by
      rintro rfl
      simp at hlen
    exact ⟨s, (), s, ⟨hne, rfl⟩, (), s, ⟨hclaim, rfl⟩, (), s, ⟨hlen, rfl⟩, _, s, ⟨rfl, rfl⟩, _, s,
      ⟨rfl, rfl⟩, _, s, ⟨rfl, rfl⟩, true, s, (attestedBy_vouched rfl).mpr ⟨hvouched, rfl⟩, (), s,
      ⟨rfl, rfl⟩, rfl, rfl⟩

/-- A lattice proof is long enough for a masked one. -/
theorem verifyLatticeProof_true (h : ReturnsTrue (verifyLatticeProof proof claim) e s) :
    13 ≤ proof.length ∧ claim ≠ [] ∧ s.vouched (e.sha256 proof) (e.sha256 claim) = true := by
  obtain ⟨t, h⟩ := h
  simp only [verifyLatticeProof, isValidLatticeProof, Tx.ok_bind, assertSizes_ok, ok_require,
    ok_sha256, ok_load, Tx.ok_pure] at h
  obtain ⟨_, _, ⟨⟨-, -, hclaim, -⟩, rfl⟩, _, _, ⟨_, _, ⟨rfl, rfl⟩, rfl, rfl⟩, _, _, ⟨hform, rfl⟩, _, _,
    ⟨rfl, rfl⟩, _, _, ⟨rfl, rfl⟩, o, _, ⟨ho, rfl⟩, b, _, hb, _, _, -, _, _, -, _, _, -, rfl, -⟩ := h
  have hlen : latticeProofHeader.length + 4 ≤ proof.length := (of_decide_eq_true hform).1
  refine ⟨?_, hclaim, ((attestedBy_vouched ho).mp hb).1⟩
  simp only [latticeProofHeader, List.length_cons, List.length_nil] at hlen
  omega

/-- A conditional proof verifies on the strength of the branch that the condition selects. -/
theorem verifyConditionalProof_true {bytes condition : Bytes} {bundle : ConditionalProof}
    {chosen : Bool} (hbundle : e.fromXdr bytes = some bundle)
    (hchosen : verifyInternal bundle.conditionProof condition e s = .ok (chosen, s))
    (h : ReturnsTrue (verifyConditionalProof bytes condition) e s) :
    verifyInternal (bundle.branch chosen).1 (bundle.branch chosen).2 e s = .ok (true, s) := by
  obtain ⟨t, h⟩ := h
  simp only [verifyConditionalProof, Tx.ok_bind, Tx.ok_ask, Tx.ok_fromSome] at h
  obtain ⟨_, _, ⟨rfl, rfl⟩, b, _, ⟨hb, rfl⟩, c, u, hc, hok⟩ := h
  obtain rfl := Option.some.inj (hb.symm.trans hbundle)
  obtain ⟨rfl, rfl⟩ := Prod.mk.inj (Except.ok.inj (hc.symm.trans hchosen))
  obtain ⟨-, -, rfl⟩ := verifyInternal_ok.mp hok
  exact hok

/-- All pairs of a batch verify, or the batch does not. -/
theorem verifyAll_true {pairs : List (Bytes × Bytes)} (h : ReturnsTrue (verifyAll pairs) e s) :
    ∀ pair ∈ pairs, s.revoked (e.sha256 pair.1) (e.sha256 pair.2) = false := by
  induction pairs generalizing s with
  | nil => simp
  | cons p rest ih =>
      obtain ⟨t, h⟩ := h
      simp only [verifyAll, Tx.ok_bind] at h
      obtain ⟨b, u, hfirst, hrest⟩ := h
      cases b with
      | false => simp at hrest
      | true =>
          have hframe : SameBut [.audit] s u := verifyClaim_frame _ _ hfirst
          have hsame : ∀ p c, u.revoked p c = s.revoked p c := fun p c => by
            simp only [State.revoked, hframe.attestation (by simp : Area.attestations ∉ _),
              hframe.invalidated (by simp : Area.invalidations ∉ _)]
          have hothers := ih ⟨t, by simpa using hrest⟩
          simp only [hsame] at hothers
          exact List.forall_mem_cons.mpr ⟨(verifyClaim_true.mp ⟨u, hfirst⟩).2.2, hothers⟩

theorem verifyCredentialsConsistent_true {proofs claims : List Bytes}
    (h : ReturnsTrue (verifyCredentialsConsistent proofs claims) e s) :
    ReturnsTrue (verifyAll (proofs.zip claims)) e s := by
  obtain ⟨t, h⟩ := h
  simp only [verifyCredentialsConsistent, Tx.ok_bind, ok_require] at h
  obtain ⟨_, _, ⟨-, rfl⟩, _, _, ⟨-, rfl⟩, b, u, hall, hok⟩ := h
  cases b with
  | false => simp at hok
  | true => exact ⟨u, hall⟩

end Calls

section Results

variable {v w : World} {ks : List Event} {proof claim : Bytes}

theorem hashes_of_run {id : Nat} {x : Bytes32 × Bytes32} (h : Reachable v) (hrun : Run Step v ks w)
    (hx : v.state.hashes id = some x) : w.state.hashes id = some x := by
  refine (hrun.invariant (I := fun u => Reachable u ∧ u.state.hashes id = some x) ⟨h, hx⟩ ?_).2
  rintro u k u' ⟨hu, hux⟩ hstep
  refine ⟨hu.step hstep, ?_⟩
  cases hstep with
  | call _ _ hexec => exact exec_hashes hu.registry _ _ hexec id x hux

/-- An upheld dispute revokes the pair for good. -/
theorem revoked_of_upheld (h : Reachable v) (hrun : Run Step v ks w)
    (hupheld : v.upheldAgainst proof claim) :
    w.state.revoked (w.sha256 proof) (w.sha256 claim) = true := by
  obtain ⟨id, d, hhashes, x, hx, hid, hstatus⟩ := hupheld
  have hw := h.run hrun
  have hlater : w.state.disputed id .upheld d :=
    ⟨x, closed_of_run h hrun hx (by simp [hstatus]), hid, hstatus⟩
  have hflag : w.state.invalidated id = true := (hw.settled.flag id).mpr ⟨d, hlater⟩
  obtain ⟨r, hr, hrid⟩ := hw.registry.recorded id _ _ (hashes_of_run h hrun hhashes)
  rw [← sha256_of_run hrun] at hr
  simp [State.revoked, hr, hrid, hflag]

/-- A revoked pair is not verified where the record is read with the flag. -/
theorem unverified_of_revoked {e : Env} {s : State}
    (hrevoked : s.revoked (e.sha256 proof) (e.sha256 claim) = true)
    (hshort : ¬ (13 ≤ proof.length ∧ claim ≠ [] ∧
      s.vouched (e.sha256 proof) (e.sha256 claim) = true)) : Unverified e s proof claim where
  direct h := by simp [(verifyClaim_true.mp h).2.2] at hrevoked
  lattice h := hshort (verifyLatticeProof_true h)
  masked h := hshort (verifyMaskedProof_true.mp h)
  conditional bytes condition bundle chosen hbundle hchosen h := by
    refine ⟨fun heq => ?_, fun htrue heq => ?_⟩
    · have hbranch := verifyConditionalProof_true hbundle hchosen h
      rw [heq] at hbranch
      simpa [hrevoked] using (verifyInternal_ok.mp hbranch).2.1
    · obtain ⟨rfl, rfl⟩ := Prod.mk.inj heq
      simpa [hrevoked, htrue] using (verifyInternal_ok.mp hchosen).2.1
  consistent proofs claims h hmem := by
    have hvalid := verifyAll_true (verifyCredentialsConsistent_true h) _ hmem
    simp [hvalid] at hrevoked

/-- Once a dispute against a pair is upheld, nothing verifies on the strength of it, and
a lattice or masked proof verifies only what `verify_claim` verifies too, exactly as
long as the pair is too short for a masked proof, or no registered oracle stands
behind it, or it is neither revoked nor too large. -/
theorem invalidated_unverified_iff (h : Reachable v) (hrun : Run Step v ks w)
    (proof claim : Bytes) :
    (∀ e : Env, e.sha256 = w.sha256 →
      (v.upheldAgainst proof claim → Unverified e w.state proof claim) ∧
      (ReturnsTrue (verifyLatticeProof proof claim) e w.state ∨
        ReturnsTrue (verifyMaskedProof proof claim) e w.state →
        ReturnsTrue (verifyClaim proof claim) e w.state)) ↔
    (13 ≤ proof.length ∧ claim ≠ [] ∧
      w.state.vouched (w.sha256 proof) (w.sha256 claim) = true →
      proof.length ≤ maxProofSize ∧ claim.length ≤ maxClaimSize ∧
        w.state.revoked (w.sha256 proof) (w.sha256 claim) = false) := by
  constructor
  · intro hall hvouched
    obtain ⟨-, hagree⟩ := hall ⟨0, Nat.zero_le _, fun _ => false, w.sha256, fun _ => none⟩ rfl
    obtain ⟨⟨-, hproof, -, hclaim⟩, -, hvalid⟩ :=
      verifyClaim_true.mp (hagree (.inr (verifyMaskedProof_true.mpr hvouched)))
    exact ⟨hproof, hclaim, hvalid⟩
  · intro hcondition e he
    rw [← he] at hcondition
    refine ⟨fun hupheld => ?_, fun hverified => ?_⟩
    · have hrevoked := revoked_of_upheld h hrun hupheld
      rw [← he] at hrevoked
      exact unverified_of_revoked hrevoked fun hlong => by
        simp [(hcondition hlong).2.2] at hrevoked
    · have hlong := hverified.elim verifyLatticeProof_true verifyMaskedProof_true.mp
      obtain ⟨hproof, hclaim, hvalid⟩ := hcondition hlong
      have hne : proof ≠ [] := by
        rintro rfl
        simp at hlong
      exact verifyClaim_true.mpr ⟨⟨hne, hproof, hlong.2.1, hclaim⟩, hlong.2.2, hvalid⟩

end Results

theorem returnsTrue_of_any {m : Contract Bool} {e : Env} {s : State}
    (h : (m e s).toOption.any (·.1) = true) : ReturnsTrue m e s := by
  cases hm : m e s with
  | error f => simp [hm, Except.toOption] at h
  | ok r =>
      obtain ⟨b, t⟩ := r
      obtain rfl : b = true := by simpa [hm, Except.toOption] using h
      exact ⟨t, hm⟩

/-- One oracle is enough to uphold a dispute against the first credential. -/
def upheldCalls (proof claim : Bytes) : List (List Address × Nat × Call) :=
  [([⟨8⟩], 1, .registerOracle ⟨20⟩), ([⟨8⟩], 1, .setDisputeThreshold 1),
    ([⟨20⟩], 2, .attest ⟨20⟩ proof claim), ([⟨30⟩], 3, .initiateCredentialDispute 1 ⟨30⟩ [7]),
    ([⟨20⟩], 4, .voteOnDispute 1 ⟨20⟩ true)]

theorem upheldAgainst_of_play {w : World} {proof claim : Bytes}
    {calls : List (List Address × Nat × Call)} (hw : play (initialised ⟨8⟩) calls = some w)
    (hhashes : w.state.hashes 1 = some (tinyHash proof, tinyHash claim))
    (hdispute : (w.state.dispute 1).any (fun x =>
      decide (x.credentialId = 1 ∧ x.status = .upheld)) = true) : w.upheldAgainst proof claim := by
  obtain ⟨x, hx, hstatus⟩ := (Option.any_eq_true _ _).mp hdispute
  have hsha := (run_of_play (w := initialised ⟨8⟩) rfl hw).2
  exact ⟨1, 1, by rw [hsha, hhashes], x, hx, of_decide_eq_true hstatus⟩

/-- A short pair is invalidated and attested again; nothing verifies on the strength of it. -/
theorem invalidated_unverified_short : ∃ v ks w e, Reachable v ∧ Run Step v ks w ∧
    attestedPairs ks = [([1], [2])] ∧ Unverified e w.state [1] [2] := by
  have hplay : (play (initialised ⟨8⟩) (upheldCalls [1] [2])).any (fun v =>
      decide (v.state.hashes 1 = some (tinyHash [1], tinyHash [2]) ∧
        (v.state.dispute 1).any (fun x => decide (x.credentialId = 1 ∧ x.status = .upheld)) = true ∧
        (play v [([⟨20⟩], 5, .attest ⟨20⟩ [1] [2])]).isSome = true)) = true := by
    decide +kernel
  obtain ⟨v, hv, hchecks⟩ := (Option.any_eq_true _ _).mp hplay
  obtain ⟨hhashes, hdispute, hagain⟩ := of_decide_eq_true hchecks
  obtain ⟨w, hw⟩ := Option.isSome_iff_exists.mp hagain
  obtain ⟨hrun, hsha⟩ := run_of_play (run_of_play (w := initialised ⟨8⟩) rfl hv).2 hw
  have hresult := invalidated_unverified_iff (reachable_of_play hv) hrun [1] [2]
  refine ⟨v, _, w, signedBy [] 6, reachable_of_play hv, hrun, rfl, ?_⟩
  exact (hresult.mpr (by simp) (signedBy [] 6) hsha.symm).1 (upheldAgainst_of_play hv hhashes hdispute)

/-- `LATTICE_V1` and the first four bytes of its hash. -/
def shortestLatticeProof : Bytes := latticeProofHeader ++ [76, 65, 84, 84]

/-- A dispute against a pair in lattice format is upheld; `verify_claim` does not verify
it any more, but it still passes as a lattice proof and as a masked proof. -/
theorem upheld_lattice_verifies : ∃ w e, Reachable w ∧ e.sha256 = w.sha256 ∧
    w.upheldAgainst shortestLatticeProof [2] ∧
    ReturnsTrue (verifyLatticeProof shortestLatticeProof [2]) e w.state ∧
    ReturnsTrue (verifyMaskedProof shortestLatticeProof [2]) e w.state ∧
    ¬ ReturnsTrue (verifyClaim shortestLatticeProof [2]) e w.state := by
  have hplay : (play (initialised ⟨8⟩) (upheldCalls shortestLatticeProof [2])).any (fun w =>
      decide (w.state.hashes 1 = some (tinyHash shortestLatticeProof, tinyHash [2]) ∧
        (w.state.dispute 1).any (fun x => decide (x.credentialId = 1 ∧ x.status = .upheld)) = true ∧
        (verifyLatticeProof shortestLatticeProof [2] (signedBy [] 5) w.state).toOption.any (·.1) =
          true)) = true := by
    decide +kernel
  obtain ⟨w, hw, hchecks⟩ := (Option.any_eq_true _ _).mp hplay
  obtain ⟨hhashes, hdispute, hlattice⟩ := of_decide_eq_true hchecks
  have hsha : (signedBy [] 5).sha256 = w.sha256 :=
    (run_of_play (w := initialised ⟨8⟩) rfl hw).2.symm
  have hupheld := upheldAgainst_of_play hw hhashes hdispute
  have hverified := returnsTrue_of_any hlattice
  have hreach := reachable_of_play hw
  refine ⟨w, signedBy [] 5, hreach, hsha, hupheld, hverified,
    verifyMaskedProof_true.mpr (verifyLatticeProof_true hverified), fun hclaim => ?_⟩
  have hrevoked := revoked_of_upheld hreach .start hupheld
  rw [← hsha, (verifyClaim_true.mp hclaim).2.2] at hrevoked
  cases hrevoked

end Heirloom.Verifier
