import Heirloom.Lib.TwoRuns
import Heirloom.Verifier.Chains
import Heirloom.Verifier.History

/-!
# Confidential credentials

Two states that differ in the oracles of one confidential credential, in its record or
in its snapshots, look the same to everyone but the admin.

* `OracleVariants`: the two states.
* `both_getAttestation`, `both_getCredentialVersion`, `both_getCredentialAtTime`,
  `both_diffCredentialVersions`, `both_verifyClaim`: the two runs of each query that
  reads a record or a snapshot.
* `confidential_hides_oracle`: all queries together.
-/

namespace Heirloom.Verifier

open Transaction TypedStore Versions Tx

/-- A record without its oracle. -/
def AttestationRecord.masked (r : AttestationRecord) : AttestationRecord :=
  { r with oracle := maskedOracle }

/-- A snapshot without its oracle. -/
def CredentialSnapshot.masked (x : CredentialSnapshot) : CredentialSnapshot :=
  { x with oracle := maskedOracle }

/-- `s` and `t` differ only in the oracles in the record and in the snapshots of credential
`c`. The oracles of the record are registered in both, or in neither. -/
structure OracleVariants (c : Nat) (s t : State) : Prop where
  same : ∀ k, (∀ h, s.hashes c = some h → k ≠ .attestation h.1 h.2) →
    (∀ time, k ≠ .credentialSnapshot c time) → t.get k = s.get k
  record : (t.record c).map AttestationRecord.masked = (s.record c).map AttestationRecord.masked
  snapshots : ∀ time, (t.get (.credentialSnapshot c time)).map CredentialSnapshot.masked =
    (s.get (.credentialSnapshot c time)).map CredentialSnapshot.masked
  registered : ∀ r r', s.record c = some r → t.record c = some r' →
    s.registered r'.oracle = s.registered r.oracle

namespace OracleVariants

variable {c i n time : Nat} {s t : State} {a : Address}

theorem hashes (h : OracleVariants c s t) : t.hashes i = s.hashes i :=
  h.same (.credentialHashes i) (by simp) (by simp)

theorem registered_eq (h : OracleVariants c s t) : t.registered a = s.registered a :=
  congrArg (·.getD false) (h.same (.oracle a) (by simp) (by simp))

theorem invalidated (h : OracleVariants c s t) : t.invalidated i = s.invalidated i :=
  congrArg (·.getD false) (h.same (.credentialInvalidated i) (by simp) (by simp))

theorem privacy (h : OracleVariants c s t) : t.privacy i = s.privacy i :=
  congrArg (·.getD .publicLevel) (h.same (.credentialPrivacy i) (by simp) (by simp))

theorem parent (h : OracleVariants c s t) : t.parent = s.parent :=
  funext fun i => h.same (.credentialParent i) (by simp) (by simp)

theorem mayRead (h : OracleVariants c s t) {level : PrivacyLevel} :
    t.mayRead a level = s.mayRead a level := by
  have hadmin : t.get .admin = s.get .admin := h.same .admin (by simp) (by simp)
  cases level <;> simp [State.mayRead, hadmin, h.registered_eq]

theorem times (h : OracleVariants c s t) : (t.log i).times = (s.log i).times :=
  congrArg (·.getD []) (h.same (.credentialSnapshotTimestamps i) (by simp) (by simp))

theorem versions (h : OracleVariants c s t) : (t.log i).versions = (s.log i).versions :=
  congrArg (·.getD []) (h.same (.credentialSnapshotVersions i) (by simp) (by simp))

/-- The records of the other credentials are the same. -/
theorem attestation_of_ne (h : OracleVariants c s t) {p q : Bytes32}
    (hne : s.hashes c ≠ some (p, q)) : t.attestation p q = s.attestation p q := by
  refine h.same (.attestation p q) (fun x hx heq => hne ?_) (by simp)
  obtain ⟨rfl, rfl⟩ : p = x.1 ∧ q = x.2 := by simpa using heq
  exact hx

theorem record_of_ne (h : OracleVariants c s t) (hs : Registry s) (hi : i ≠ c) :
    t.record i = s.record i := by
  cases hx : s.hashes i with
  | none => simp [State.record, h.hashes, hx]
  | some x =>
      have hne : s.hashes c ≠ some (x.1, x.2) := fun hc => by
        obtain ⟨r, hr, hrid⟩ := hs.recorded i x.1 x.2 hx
        obtain ⟨r', hr', hrid'⟩ := hs.recorded c x.1 x.2 hc
        rw [Option.some.inj (hr.symm.trans hr')] at hrid
        exact hi (hrid.symm.trans hrid')
      simp [State.record, h.hashes, hx, h.attestation_of_ne hne]

theorem log_of_ne (h : OracleVariants c s t) (hi : i ≠ c) : t.log i = s.log i :=
  log_congr (h.same _ (by simp) (by simp)) (h.same _ (by simp) (by simp)) fun time =>
    h.same (.credentialSnapshot i time) (by simp) (by simp [hi])

theorem isSome_entry (h : OracleVariants c s t) :
    ((t.log i).entry time).isSome = ((s.log i).entry time).isSome := by
  by_cases hi : i = c
  · subst hi
    change (t.get (.credentialSnapshot i time)).isSome = (s.get (.credentialSnapshot i time)).isSome
    simpa using congrArg Option.isSome (h.snapshots time)
  · rw [h.log_of_ne hi]

theorem isSome_ofVersion (h : OracleVariants c s t) :
    ((t.log i).ofVersion n).isSome = ((s.log i).ofVersion n).isSome := by
  simp only [VersionLog.ofVersion, h.times, h.versions]
  cases hi : (s.log i).versions.findIdx? (· = n) with
  | none => rfl
  | some j =>
      cases hj : (s.log i).times[j]? with
      | none => simp [hj]
      | some time => simpa [hj] using h.isSome_entry

theorem isSome_asOf (h : OracleVariants c s t) :
    ((t.log i).asOf time).isSome = ((s.log i).asOf time).isSome := by
  simp only [VersionLog.asOf, h.times]
  cases (s.log i).times.reverse.find? (· ≤ time) with
  | none => rfl
  | some time => simpa using h.isSome_entry

end OracleVariants

section Queries

variable {e : Env} {s t : State} {requester : Address} {c i n m time : Nat}

/-- What nobody but the admin may read of the credential. -/
def Hidden (s : State) (requester : Address) (c : Nat) : Prop :=
  s.mayRead requester (s.privacy c) = false

theorem credentialPrivacy_ok : credentialPrivacy i e s = .ok (s.privacy i, s) := by
  simp only [credentialPrivacy, Tx.ok_bind, ok_load, Tx.ok_pure]
  exact ⟨_, s, ⟨rfl, rfl⟩, rfl, rfl⟩

theorem both_requireAuth {Q : Unit → State → Unit → State → Prop} (hQ : Q () s () t) :
    Both (requireAuth requester) (requireAuth requester) Q e s t :=
  both_ensure (r := e) Iff.rfl fun _ => hQ

/-- The gate lets equal snapshots pass, and hides the others. -/
theorem both_gate (h : OracleVariants c s t) {x x' : CredentialSnapshot} :
    Both (gateSnapshotForPrivacy requester i x) (gateSnapshotForPrivacy requester i x')
      (fun y u y' v => (y = x ∧ u = s) ∧ (y' = x' ∧ v = t) ∧
        s.mayRead requester (s.privacy i) = true) e s t := by
  refine both_bind_of_ok credentialPrivacy_ok credentialPrivacy_ok ?_
  refine both_bind_of_ok (mayRead_ok.mpr ⟨rfl, rfl⟩) (mayRead_ok.mpr ⟨rfl, rfl⟩) ?_
  refine both_bind (both_ensure (by rw [h.privacy, h.mayRead]) fun hread => both_pure ?_)
  exact ⟨⟨rfl, rfl⟩, ⟨rfl, rfl⟩, hread⟩

/-- The end of a query for a snapshot, if the two differ only where they are hidden. -/
theorem both_gated (h : OracleVariants c s t) {o o' : Option CredentialSnapshot}
    (hiff : o.isSome = o'.isSome) (hsame : s.mayRead requester (s.privacy i) = true → o = o') :
    Both (ifSomeElse o (fun x => do
        let gated ← gateSnapshotForPrivacy requester i x
        return some gated) (pure none) : Contract (Option CredentialSnapshot))
      (ifSomeElse o' (fun x => do
        let gated ← gateSnapshotForPrivacy requester i x
        return some gated) (pure none)) (fun y _ y' _ => y = y') e s t := by
  refine both_ifSomeElse hiff (fun x x' hx hx' => both_bind ?_) fun _ => both_pure rfl
  refine Both.mono (both_gate h) ?_
  rintro _ _ _ _ ⟨⟨rfl, rfl⟩, ⟨rfl, rfl⟩, hread⟩
  exact both_pure (hx.symm.trans ((hsame hread).trans hx'))

theorem Hidden.ne (hidden : Hidden s requester c)
    (hread : s.mayRead requester (s.privacy i) = true) : i ≠ c := by
  rintro rfl
  exact absurd (hread.symm.trans hidden) (by simp)

theorem both_getCredentialVersion (h : OracleVariants c s t) (hidden : Hidden s requester c) :
    Both (getCredentialVersion requester i n) (getCredentialVersion requester i n)
      (fun y _ y' _ => y = y') e s t := by
  refine both_bind (both_requireAuth ?_)
  refine both_bind_of_ok loadSnapshotByVersion_ok loadSnapshotByVersion_ok ?_
  refine both_gated h h.isSome_ofVersion.symm fun hread => ?_
  rw [h.log_of_ne (hidden.ne hread)]

theorem both_getCredentialAtTime (h : OracleVariants c s t) (hidden : Hidden s requester c)
    (hs : (s.log i).Wf CredentialSnapshot.version) (ht : (t.log i).Wf CredentialSnapshot.version) :
    Both (getCredentialAtTime requester i time) (getCredentialAtTime requester i time)
      (fun y _ y' _ => y = y') e s t := by
  refine both_bind (both_requireAuth ?_)
  refine both_bind_of_ok (loadSnapshotAtOrBefore_ok hs) (loadSnapshotAtOrBefore_ok ht) ?_
  refine both_gated h h.isSome_asOf.symm fun hread => ?_
  rw [h.log_of_ne (hidden.ne hread)]

theorem both_diffCredentialVersions (h : OracleVariants c s t) (hidden : Hidden s requester c) :
    Both (diffCredentialVersions requester i n m) (diffCredentialVersions requester i n m)
      (fun y _ y' _ => y = y') e s t := by
  refine both_bind (both_requireAuth ?_)
  refine both_bind_of_ok loadSnapshotByVersion_ok loadSnapshotByVersion_ok ?_
  refine both_bind (both_fromSome h.isSome_ofVersion.symm fun x x' hx hx' => ?_)
  refine both_bind_of_ok loadSnapshotByVersion_ok loadSnapshotByVersion_ok ?_
  refine both_bind (both_fromSome h.isSome_ofVersion.symm fun y y' hy hy' => ?_)
  refine both_bind (Both.mono (both_gate h) ?_)
  rintro _ _ _ _ ⟨⟨rfl, rfl⟩, ⟨rfl, rfl⟩, hread⟩
  refine both_bind (Both.mono (both_gate h) ?_)
  rintro _ _ _ _ ⟨⟨rfl, rfl⟩, ⟨rfl, rfl⟩, -⟩
  -- both gates are open, so this is another credential
  rw [h.log_of_ne (hidden.ne hread)] at hx' hy'
  obtain rfl := Option.some.inj (hx.symm.trans hx')
  obtain rfl := Option.some.inj (hy.symm.trans hy')
  exact both_pure rfl

theorem redactAttestationRecord_ok {r : AttestationRecord} :
    ∃ u, redactAttestationRecord r e s = .ok (r.masked, u) := by
  simp only [redactAttestationRecord, Tx.ok_bind, ok_sha256, ok_save, Tx.ok_pure]
  exact ⟨_, _, s, ⟨rfl, rfl⟩, (), _, rfl, rfl, rfl⟩

/-- The record of the credential is redacted, and then it is the same. -/
theorem both_getAttestation (h : OracleVariants c s t) (hs : Registry s)
    (hidden : Hidden s requester c) : Both (getAttestation requester i)
      (getAttestation requester i) (fun y _ y' _ => y = y') e s t := by
  have hmasked : (t.record i).map AttestationRecord.masked =
      (s.record i).map AttestationRecord.masked := by
    by_cases hi : i = c
    · exact hi ▸ h.record
    · rw [h.record_of_ne hs hi]
  refine both_bind (both_requireAuth ?_)
  refine both_bind_of_ok loadAttestationRecord_ok loadAttestationRecord_ok ?_
  refine both_ifSomeElse (by simpa using (congrArg Option.isSome hmasked).symm) (fun r r' hr hr' => ?_)
    fun _ => both_pure rfl
  refine both_bind_of_ok credentialPrivacy_ok credentialPrivacy_ok ?_
  rw [h.privacy]
  refine both_bind_of_ok (mayRead_ok.mpr ⟨rfl, rfl⟩) (mayRead_ok.mpr ⟨rfl, rfl⟩) ?_
  rw [h.mayRead]
  cases hread : s.mayRead requester (s.privacy i) with
  | true =>
      rw [h.record_of_ne hs (hidden.ne hread)] at hr'
      exact both_pure (hr.symm.trans hr')
  | false =>
      simp only [Bool.false_eq_true, if_false]
      by_cases hconfidential : s.privacy i = .confidential
      · rw [if_pos hconfidential, if_pos hconfidential]
        obtain ⟨u, hu⟩ := redactAttestationRecord_ok (e := e) (s := s) (r := r)
        obtain ⟨v, hv⟩ := redactAttestationRecord_ok (e := e) (s := t) (r := r')
        refine both_bind_of_ok hu hv (both_pure ?_)
        rw [hr, hr'] at hmasked
        exact hmasked.symm
      · rw [if_neg hconfidential, if_neg hconfidential]
        exact both_abort

/-- The verdict on a pair depends on whether its oracle is registered, not on who it is. -/
theorem OracleVariants.verdict (h : OracleVariants c s t) (hs : Registry s) (p q : Bytes32) :
    t.vouched p q = s.vouched p q ∧ t.revoked p q = s.revoked p q := by
  by_cases hc : s.hashes c = some (p, q)
  · have hrecord : s.record c = s.attestation p q := by simp [State.record, hc]
    have hrecord' : t.record c = t.attestation p q := by simp [State.record, h.hashes, hc]
    have hmasked := h.record
    rw [hrecord, hrecord'] at hmasked
    obtain ⟨r, hr, -⟩ := hs.recorded c p q hc
    rw [hr] at hmasked
    obtain ⟨r', hr', heq⟩ := Option.map_eq_some_iff.mp hmasked
    have hid : r'.credentialId = r.credentialId := congrArg (·.credentialId) heq
    have horacle := h.registered r r' (hrecord.trans hr) (hrecord'.trans hr')
    simp [State.vouched, State.revoked, hr, hr', hid, horacle, h.registered_eq, h.invalidated]
  · simp [State.vouched, State.revoked, h.attestation_of_ne hc, h.registered_eq, h.invalidated]

theorem both_verifyClaim (h : OracleVariants c s t) (hs : Registry s) {proof claim : Bytes} :
    Both (verifyClaim proof claim) (verifyClaim proof claim) (fun y _ y' _ => y = y') e s t := by
  have hsizes : Both (assertSizes proof claim) (assertSizes proof claim)
      (fun _ u _ v => u = s ∧ v = t ∧ Fits proof claim) e s t := by
    refine both_bind (both_ensure Iff.rfl fun hproof => ?_)
    refine both_bind (both_ensure Iff.rfl fun hlarge => ?_)
    refine both_bind (both_ensure Iff.rfl fun hclaim => ?_)
    exact both_ensure Iff.rfl fun hlarge' => ⟨rfl, rfl, hproof, hlarge, hclaim, hlarge'⟩
  rcases hsizes with ⟨_, _, _, _, -, -, -, -, hfits⟩ | ⟨err, hfail, hfail'⟩
  · obtain ⟨u, hu⟩ := verifyClaim_ok.mpr ⟨hfits, rfl⟩
    obtain ⟨v, hv⟩ := verifyClaim_ok.mpr ⟨hfits, rfl⟩
    obtain ⟨hvouched, hrevoked⟩ := h.verdict hs (e.sha256 proof) (e.sha256 claim)
    exact both_of_ok hu hv (by rw [hvouched, hrevoked])
  · have hverify : ∀ s : State, assertSizes proof claim e s = .error err →
        verifyClaim proof claim e s = .error err := by
      intro s hs
      simp only [verifyClaim, verifyInternal, Tx.err_bind, ok_sha256]
      exact .inr ⟨_, s, ⟨rfl, rfl⟩, .inl (.inl hs)⟩
    exact .inr ⟨err, hverify s hfail, hverify t hfail'⟩

end Queries

/-- Two reachable states that differ only in the oracles of a confidential credential
cannot be told apart by anyone but the admin: every query returns the same, or fails in
the same way, in both. -/
theorem confidential_hides_oracle {w w' : World} (h : Reachable w) (h' : Reachable w') {c : Nat}
    (hvariants : OracleVariants c w.state w'.state) (hlevel : w.state.privacy c = .confidential)
    (requester : Address) (hadmin : ∀ a, w.state.get .admin = some a → a ≠ requester)
    (e : Env) (i n m time : Nat) (proof claim : Bytes) :
    (getAttestation requester i).outcome e w.state =
      (getAttestation requester i).outcome e w'.state ∧
    (getCredentialVersion requester i n).outcome e w.state =
      (getCredentialVersion requester i n).outcome e w'.state ∧
    (getCredentialAtTime requester i time).outcome e w.state =
      (getCredentialAtTime requester i time).outcome e w'.state ∧
    (diffCredentialVersions requester i n m).outcome e w.state =
      (diffCredentialVersions requester i n m).outcome e w'.state ∧
    (credentialVersionCount i).outcome e w.state = (credentialVersionCount i).outcome e w'.state ∧
    (getCredentialDisputes i).outcome e w.state = (getCredentialDisputes i).outcome e w'.state ∧
    (getCredentialChain i).outcome e w.state = (getCredentialChain i).outcome e w'.state ∧
    (verifyClaim proof claim).outcome e w.state = (verifyClaim proof claim).outcome e w'.state := by
  have hidden : Hidden w.state requester c := by
    cases hget : w.state.get .admin with
    | none => simp [Hidden, hlevel, State.mayRead, hget]
    | some a => simp [Hidden, hlevel, State.mayRead, hget, hadmin a hget]
  refine ⟨(both_getAttestation hvariants h.registry hidden).outcome_eq,
    (both_getCredentialVersion hvariants hidden).outcome_eq,
    (both_getCredentialAtTime hvariants hidden (h.chronicle.wf i) (h'.chronicle.wf i)).outcome_eq,
    (both_diffCredentialVersions hvariants hidden).outcome_eq,
    Both.outcome_eq (both_of_ok credentialVersionCount_ok credentialVersionCount_ok ?_),
    Both.outcome_eq (both_bind (both_load ?_)), ?_,
    (both_verifyClaim hvariants h.registry).outcome_eq⟩
  · simp only [VersionLog.newest, hvariants.versions]
  · rw [hvariants.same (.credentialDisputeHistory i) (by simp) (by simp)]
    exact both_pure rfl
  · obtain ⟨l, hl, hget⟩ := getCredentialChain_ok (e := e) (s := w.state) (c := i)
    obtain ⟨l', hl', hget'⟩ := getCredentialChain_ok (e := e) (s := w'.state) (c := i)
    refine Both.outcome_eq (both_of_ok hl hl' (List.ext_getElem? fun n => ?_))
    rw [hget n, hget' n, State.ancestor, State.ancestor, hvariants.parent]

/-- A credential attested by `oracle`, which is confidential from then on. -/
def confidentialCalls (oracle : Address) : List (List Address × Nat × Call) :=
  [([⟨8⟩], 1, .registerOracle ⟨20⟩), ([⟨8⟩], 1, .registerOracle ⟨21⟩),
    ([oracle], 2, .attest oracle [1] [2]), ([⟨8⟩], 3, .setCredentialPrivacy 1 .confidential)]

/-- What these calls store. -/
def confidentialState (oracle : Address) : State :=
  (((((((((Store.empty.put .admin ⟨8⟩).put (.oracle ⟨20⟩) true).put (.oracle ⟨21⟩) true).put
    .credentialCount 1).put (.credentialHashes 1) (tinyHash [1], tinyHash [2])).put
    (.attestation (tinyHash [1]) (tinyHash [2]))
      ⟨1, oracle, saturatingAdd64 2 consistencyCheckInterval⟩).put
    (.credentialSnapshot 1 2) ⟨1, oracle, false, 2, 1⟩).put (.credentialSnapshotTimestamps 1) [2]).put
    (.credentialSnapshotVersions 1) [1]).put (.credentialPrivacy 1) .confidential

theorem oracleVariants_confidentialState :
    OracleVariants 1 (confidentialState ⟨20⟩) (confidentialState ⟨21⟩) where
  same k hk hk' := by
    cases k with
    | attestation p q =>
        have hne : DataKey.attestation p q ≠ .attestation (tinyHash [1]) (tinyHash [2]) :=
          hk (tinyHash [1], tinyHash [2]) rfl
        simp only [ne_eq, DataKey.attestation.injEq] at hne
        simp [confidentialState, hne]
    | credentialSnapshot i time =>
        have hne : DataKey.credentialSnapshot i time ≠ .credentialSnapshot 1 2 := by
          intro heq
          exact hk' 2 heq
        simp only [ne_eq, DataKey.credentialSnapshot.injEq] at hne
        simp [confidentialState, hne]
    | _ => rfl
  record := rfl
  snapshots time := by
    by_cases htime : time = 2
    · subst htime
      rfl
    · simp [confidentialState, htime]
  registered r r' hr hr' := by
    obtain rfl := Option.some.inj (hr.symm.trans rfl)
    obtain rfl := Option.some.inj (hr'.symm.trans rfl)
    rfl

/-- Whether oracle 20 or oracle 21 has attested the confidential credential, a stranger
reads the same record. -/
theorem confidential_hides_oracle_stranger :
    (∃ w, play (initialised ⟨8⟩) (confidentialCalls ⟨20⟩) = some w ∧
      w.state = confidentialState ⟨20⟩) ∧
    (∃ w, play (initialised ⟨8⟩) (confidentialCalls ⟨21⟩) = some w ∧
      w.state = confidentialState ⟨21⟩) ∧
    (getAttestation ⟨50⟩ 1).outcome (signedBy [⟨50⟩] 9) (confidentialState ⟨20⟩) =
      (getAttestation ⟨50⟩ 1).outcome (signedBy [⟨50⟩] 9) (confidentialState ⟨21⟩) := by
  have hplay : play (initialised ⟨8⟩) (confidentialCalls ⟨20⟩) =
      some ⟨confidentialState ⟨20⟩, 3, tinyHash⟩ := rfl
  have hplay' : play (initialised ⟨8⟩) (confidentialCalls ⟨21⟩) =
      some ⟨confidentialState ⟨21⟩, 3, tinyHash⟩ := rfl
  refine ⟨⟨_, hplay, rfl⟩, ⟨_, hplay', rfl⟩, ?_⟩
  refine (confidential_hides_oracle (reachable_of_play hplay) (reachable_of_play hplay')
    oracleVariants_confidentialState rfl ⟨50⟩ ?_ (signedBy [⟨50⟩] 9) 1 1 1 2 [1]
    [2]).1
  intro a ha
  obtain rfl := Option.some.inj (ha.symm.trans rfl)
  decide

end Heirloom.Verifier
