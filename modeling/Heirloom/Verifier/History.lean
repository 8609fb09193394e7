import Heirloom.Verifier.Registry

/-!
# The history of a credential

Every attestation and every decided dispute leaves a snapshot of the credential, at
most one for each ledger time and at most `maxCredentialSnapshots` of them.

* `exec_logged`: what one call does to the history of a credential, and to what is in
  force. The snapshot of a decided dispute says whether this dispute was upheld, which
  is not what is in force if an earlier dispute was.
* `versions_stable`: the numbering of the snapshots, in every reachable state.
* `history_faithful`: in every run in which no dispute against an invalidated
  credential is rejected, the newest snapshot is what is in force, and a query for an
  earlier time finds what was in force then.
* `rejection_forgets_invalidation`: a run in which one is.
-/

namespace Heirloom.Verifier

open Transaction TypedStore Versions Runs

/-- What is in force for credential `id`: its oracle, and whether it is invalidated. -/
def State.current (s : State) (id : Nat) : Option (Address × Bool) :=
  (s.record id).map fun r => (r.oracle, s.invalidated id)

/-- What a snapshot says. -/
def CredentialSnapshot.view (x : CredentialSnapshot) : Address × Bool := (x.oracle, x.invalidated)

/-- A vote that rejects a dispute finds the credential valid. -/
def Call.RejectsValid (s : State) (_ : Env) : Call → Prop
  | .voteOnDispute d _ vote => ∀ x, s.dispute d = some x →
      (x.counted vote).resolution s.threshold = some false → s.invalidated x.credentialId = false
  | _ => True

/-- Disputes are about known credentials. -/
def Grounded (s : State) : Prop :=
  ∀ d x, s.dispute d = some x → (s.hashes x.credentialId).isSome = true

/-- What a call does to the history of credential `id`, and to what is in force. -/
inductive Logged (e : Env) (k : Call) (id : Nat) (s t : State) : Prop
  | same (hlog : t.log id = s.log id) (hcurrent : t.current id = s.current id)
  | noted (oracle : Address) (invalidated : Bool)
      (hlog : t.log id = (s.log id).record maxCredentialSnapshots e.timestamp
        fun version => ⟨id, oracle, invalidated, e.timestamp, version⟩)
      (hcurrent : k.RejectsValid s e → t.current id = some (oracle, invalidated))

section Steps

variable {e : Env} {s t : State} {k : Call} {oracle voter : Address} {p c : Bytes32} {id d : Nat}
  {vote : Bool} {x : Dispute}

theorem Kept.current (h : Kept s t) (hflag : t.invalidated id = s.invalidated id) :
    t.current id = s.current id := by
  cases hhashes : s.hashes id with
  | none => simp [State.current, State.record, h.hashes, hhashes]
  | some x =>
      have hrecords := congrArg (Option.map fun y : Nat × Address => (y.2, s.invalidated id))
        (h.records x.1 x.2)
      simpa [State.current, State.record, h.hashes, hhashes, hflag, Option.map_map,
        Function.comp_def] using hrecords

/-- An attestation of one credential leaves the records of the others alone. -/
theorem Attests.record (h : Attests e oracle p c id s t) (hs : Registry s) :
    t.record id = some ⟨id, oracle, saturatingAdd64 e.timestamp consistencyCheckInterval⟩ ∧
      ∀ i, i ≠ id → t.record i = s.record i := by
  have ht := h.registry hs
  have hown : t.hashes id = some (p, c) := ht.named p c _ h.own
  refine ⟨by simpa [State.record, hown] using h.own, fun i hi => ?_⟩
  have hhashes : t.hashes i = s.hashes i := by
    cases h.minted with
    | reused _ _ _ _ hhashes => exact hhashes i
    | fresh _ _ _ hhashes => rw [hhashes, if_neg hi]
  cases hx : s.hashes i with
  | none => simp [State.record, hhashes, hx]
  | some x =>
      have hne : ¬ (x.1 = p ∧ x.2 = c) := by
        rintro ⟨rfl, rfl⟩
        obtain ⟨r, hr, hrid⟩ := ht.recorded i x.1 x.2 (hhashes.trans hx)
        rw [h.own] at hr
        exact hi (hrid.symm.trans (congrArg (·.credentialId) (Option.some.inj hr)).symm)
      simp [State.record, hhashes, hx, h.others x.1 x.2 hne]

theorem Attests.logged (h : Attests e oracle p c id s t) (hs : Registry s)
    (hflag : ∀ i, t.invalidated i = s.invalidated i) (i : Nat) : Logged e k i s t := by
  obtain ⟨hown, hothers⟩ := h.record hs
  by_cases hi : i = id
  · subst hi
    exact .noted oracle (s.invalidated i) h.snapshot.own fun _ => by
      simp [State.current, hown, hflag]
  · exact .same (h.snapshot.others i hi) (by simp [State.current, hothers i hi, hflag])

theorem Votes.logged (h : Votes e d voter vote x s t) (hs : Registry s) (hground : Grounded s)
    (hrecord : ∀ i, t.record i = s.record i) (i : Nat) :
    Logged e (.voteOnDispute d voter vote) i s t := by
  have hid : (x.counted vote).credentialId = x.credentialId := credentialId_counted
  generalize hres : (x.counted vote).resolution s.threshold = res
  cases hres ▸ h.outcome with
  | pending _ _ hflag hlog => exact .same (hlog i) (by simp [State.current, hrecord, hflag])
  | decided upheld _ _ hflag hnoted =>
      rw [hid] at hflag
      obtain ⟨hash, hhash⟩ := Option.isSome_iff_exists.mp (hground d x h.before)
      obtain ⟨r, hr, -⟩ := hs.recorded _ _ _ hhash
      have hknown : s.record x.credentialId = some r := by simpa [State.record, hhash] using hr
      have hrecorded := hnoted.recorded r (hid ▸ hknown)
      rw [hid] at hrecorded
      by_cases hi : i = x.credentialId
      · subst hi
        refine .noted r.oracle upheld hrecorded.own fun hvalid => ?_
        have hbefore : upheld = false → s.invalidated x.credentialId = false := by
          rintro rfl
          exact hvalid x h.before hres
        cases upheld with
        | true => simp [State.current, hrecord, hknown, hflag]
        | false => simp [State.current, hrecord, hknown, hflag, hbefore]
      · exact .same (hrecorded.others i hi) (by simp [State.current, hrecord, hflag, hi])

/-- What one call does to the history of every credential. -/
theorem exec_logged (hs : Registry s) (hground : Grounded s) :
    wp (exec k) (fun _ t => ∀ i, Logged e k i s t) e s := by
  have hframe : wp (exec k) (fun _ t => SameBut k.areas s t) e s := exec_frame k
  cases hk : k.attests with
  | some x =>
      refine Tx.wp_mono (Tx.wp_and hframe (exec_attests hk)) ?_
      rintro _ t ⟨hsame, ⟨id, hattests⟩, -⟩ i
      refine hattests.logged hs (fun i => hsame.invalidated ?_) i
      cases k <;> simp [Call.attests, Call.areas] at hk ⊢
  | none =>
      have hquiet : .snapshots ∉ k.areas → .invalidations ∉ k.areas →
          wp (exec k) (fun _ t => ∀ i, Logged e k i s t) e s := by
        intro hsnapshots hflags
        refine Tx.wp_mono (Tx.wp_and hframe (exec_kept hk)) ?_
        rintro _ t ⟨hsame, hkept⟩ i
        exact .same (hsame.log hsnapshots) (hkept.current (hsame.invalidated hflags))
      cases k with
      | attest | createDerivedCredential => simp [Call.attests] at hk
      | voteOnDispute d a b =>
          refine Tx.wp_mono (Tx.wp_and hframe (voteOnDispute_spec d a b)) ?_
          rintro _ t ⟨hsame, x, hvotes⟩ i
          exact hvotes.logged hs hground
            (fun i => hsame.record (by simp [Call.areas]) (by simp [Call.areas])) i
      | _ => exact hquiet (by simp [Call.areas]) (by simp [Call.areas])

theorem exec_grounded (hs : Registry s) (hground : Grounded s) :
    wp (exec k) (fun _ t => Grounded t) e s := by
  have hframe : wp (exec k) (fun _ t => SameBut k.areas s t) e s := exec_frame k
  have hsame : .disputes ∉ k.areas → wp (exec k) (fun _ t => Grounded t) e s := by
    intro hdisputes
    refine Tx.wp_mono (Tx.wp_and hframe (exec_hashes hs)) ?_
    rintro _ t ⟨ht, hhashes⟩ d x hx
    have hbefore : s.dispute d = some x := (ht.get (k := .disputeRecord d) hdisputes).symm.trans hx
    obtain ⟨h, hh⟩ := Option.isSome_iff_exists.mp (hground d x hbefore)
    simp [hhashes _ h hh]
  cases k with
  | initiateCredentialDispute i a r =>
      refine Tx.wp_mono (Tx.wp_and hframe (exec_opens i a r)) ?_
      rintro _ t ⟨hsame, d, hopens⟩ d' x hx
      rw [hsame.hashes (by simp [Call.areas])]
      rw [hopens.disputes d'] at hx
      split at hx
      · rw [← Option.some.inj hx]
        exact hopens.known
      · exact hground d' x hx
  | voteOnDispute d a b =>
      refine Tx.wp_mono (Tx.wp_and hframe (voteOnDispute_spec d a b)) ?_
      rintro _ t ⟨hsame, x, hvotes⟩ d' y hy
      rw [hsame.hashes (by simp [Call.areas])]
      by_cases hd : d' = d
      · subst hd
        obtain ⟨z, hz, hid, -⟩ := hvotes.dispute_eq
        rw [Option.some.inj (hy.symm.trans hz), hid]
        exact hground d' x hvotes.before
      · exact hground d' y (hvotes.others d' hd ▸ hy)
  | _ => exact hsame (by simp [Call.areas])

theorem Reachable.grounded {w : World} (h : Reachable w) : Grounded w.state := by
  refine (reachable_invariant (I := fun s => Registry s ∧ Grounded s) h ?_ ?_).2
  · refine fun w hw => ⟨registry_genesis hw, fun d x hx => ?_⟩
    rw [show w.state.dispute d = none from hw.get (k := .disputeRecord d) (by simp)] at hx
    cases hx
  · exact fun hs => Tx.wp_and (exec_registry hs.1) (exec_grounded hs.1 hs.2)

end Steps

/-! ## Versions -/

/-- The histories of a world: well formed, bounded, and not from the future. -/
structure Chronicle (w : World) : Prop where
  wf : ∀ id, (w.state.log id).Wf CredentialSnapshot.version
  bounded : ∀ id, (w.state.log id).times.length ≤ maxCredentialSnapshots
  past : ∀ id, ∀ time ∈ (w.state.log id).times, time ≤ w.clock

section Versions

variable {w w' : World} {k : Event} {ks : List Event} {id n : Nat}

theorem chronicle_genesis (h : Genesis w) : Chronicle w := by
  have htimes : ∀ id, (w.state.log id).times = [] := fun id => by
    simp [State.log, h.get (k := .credentialSnapshotTimestamps id) (by simp)]
  have hversions : ∀ id, (w.state.log id).versions = [] := fun id => by
    simp [State.log, h.get (k := .credentialSnapshotVersions id) (by simp)]
  have hentry : ∀ id time, (w.state.log id).entry time = none := fun id time =>
    h.get (k := .credentialSnapshot id time) (by simp)
  exact ⟨fun id => VersionLog.wf_empty (htimes id) (hversions id) (hentry id), by simp [htimes],
    by simp [htimes]⟩

/-- What one step does to the history of a credential. -/
theorem Step.logged (h : Step w k w') (hw : Reachable w) (id : Nat) :
    Logged k.env k.call id w.state w'.state ∧ w.clock ≤ k.env.timestamp ∧
      w'.clock = k.env.timestamp := by
  cases h with
  | call hclock _ hexec => exact ⟨exec_logged hw.registry hw.grounded _ _ hexec id, hclock, rfl⟩

theorem Chronicle.step (h : Chronicle w) (hw : Reachable w) (hstep : Step w k w') :
    Chronicle w' := by
  have hpast : ∀ id, ∀ time ∈ (w.state.log id).times, time ≤ k.env.timestamp := fun id time ht =>
    (h.past id time ht).trans (hstep.logged hw id).2.1
  refine ⟨fun id => ?_, fun id => ?_, fun id time htime => ?_⟩
  · cases (hstep.logged hw id).1 with
    | same hlog => exact hlog ▸ h.wf id
    | noted _ _ hlog =>
        rw [hlog]
        exact (h.wf id).record (hpast id) fun _ => rfl
  · cases (hstep.logged hw id).1 with
    | same hlog => exact hlog ▸ h.bounded id
    | noted _ _ hlog =>
        rw [hlog]
        exact VersionLog.length_record (h.bounded id)
  · obtain ⟨hlogged, -, hclock⟩ := hstep.logged hw id
    rw [hclock]
    cases hlogged with
    | same hlog => exact hpast id time (hlog ▸ htime)
    | noted _ _ hlog =>
        rw [hlog] at htime
        rcases VersionLog.mem_times_record htime with hold | rfl
        · exact hpast id time hold
        · exact le_rfl

theorem Reachable.chronicle (h : Reachable w) : Chronicle w := by
  obtain ⟨w₀, ks, h₀, hrun⟩ := h
  refine (hrun.invariant (I := fun v => Reachable v ∧ Chronicle v)
    ⟨.of_genesis h₀, chronicle_genesis h₀⟩ ?_).2
  exact fun v k v' hv hstep => ⟨hv.1.step hstep, hv.2.step hv.1 hstep⟩

/-- A version that has been dropped stays away. -/
theorem forgotten_of_run (h : Reachable w) (hrun : Run Step w ks w')
    (hle : n ≤ (w.state.log id).newest) (hnot : n ∉ (w.state.log id).versions) :
    n ∉ (w'.state.log id).versions := by
  refine (hrun.invariant (I := fun v => Reachable v ∧ n ≤ (v.state.log id).newest ∧
    n ∉ (v.state.log id).versions) ⟨h, hle, hnot⟩ ?_).2.2
  rintro v k v' ⟨hv, hvle, hvnot⟩ hstep
  refine ⟨hv.step hstep, ?_⟩
  cases (hstep.logged hv id).1 with
  | same hlog => exact hlog ▸ ⟨hvle, hvnot⟩
  | noted _ _ hlog =>
      rw [hlog]
      exact VersionLog.forgotten_record hvle hvnot

end Versions

/-! ## Queries -/

/-- The privacy level of a credential. -/
def State.privacy (s : State) (id : Nat) : PrivacyLevel :=
  (s.get (.credentialPrivacy id)).getD .publicLevel

/-- The access rule. -/
def State.mayRead (s : State) (requester : Address) : PrivacyLevel → Bool
  | .publicLevel => true
  | .internal => (s.get .admin).any (fun a => decide (a = requester)) || s.registered requester
  | .confidential => (s.get .admin).any fun a => decide (a = requester)

section Queries

variable {e : Env} {s t : State} {requester : Address} {id n : Nat}

theorem credentialVersionCount_ok :
    credentialVersionCount id e s = .ok ((s.log id).newest, s) := by
  simp only [credentialVersionCount, Tx.ok_bind, ok_load, Tx.ok_pure]
  exact ⟨_, s, ⟨rfl, rfl⟩, rfl, rfl⟩

theorem loadSnapshotByVersion_ok :
    loadSnapshotByVersion id n e s = .ok ((s.log id).ofVersion n, s) := by
  have hfound : (do
      let index ← (← s.get (.credentialSnapshotVersions id)).findIdx? (· = n)
      (← s.get (.credentialSnapshotTimestamps id))[index]?) =
      ((s.log id).versions.findIdx? (· = n)).bind fun i => (s.log id).times[i]? := by
    cases hversions : s.get (.credentialSnapshotVersions id) <;>
      cases htimes : s.get (.credentialSnapshotTimestamps id) <;>
      simp [State.log, hversions, htimes]
  simp only [loadSnapshotByVersion, Tx.ok_bind, ok_load]
  refine ⟨_, s, ⟨rfl, rfl⟩, _, s, ⟨rfl, rfl⟩, ?_⟩
  rw [hfound]
  have hof : (s.log id).ofVersion n = (((s.log id).versions.findIdx? (· = n)).bind fun i =>
      (s.log id).times[i]?).bind (s.log id).entry := by
    simp [VersionLog.ofVersion, Option.bind_assoc]
  rw [hof]
  cases ((s.log id).versions.findIdx? (· = n)).bind fun i => (s.log id).times[i]? with
  | none => simp
  | some time => simp [State.log]

@[simp ↓] theorem wp_loadSnapshotByVersion {Q : Option CredentialSnapshot → State → Prop} :
    wp (loadSnapshotByVersion id n) Q e s ↔ Q ((s.log id).ofVersion n) s := by
  simp [wp, loadSnapshotByVersion_ok]

@[simp] theorem mayRead_ok {level : PrivacyLevel} {b : Bool} :
    mayRead requester level e s = .ok (b, t) ↔ s.mayRead requester level = b ∧ s = t := by
  cases level with
  | publicLevel => simp [mayRead, State.mayRead]
  | internal =>
      simp only [mayRead, isAdmin, State.mayRead, Tx.ok_bind, ok_load, Tx.ok_pure, isOracle_ok]
      constructor
      · rintro ⟨_, _, ⟨_, _, ⟨rfl, rfl⟩, rfl, rfl⟩, _, _, ⟨rfl, rfl⟩, hb, rfl⟩
        exact ⟨hb, rfl⟩
      · rintro ⟨hb, rfl⟩
        exact ⟨_, s, ⟨_, s, ⟨rfl, rfl⟩, rfl, rfl⟩, _, s, ⟨rfl, rfl⟩, hb, rfl⟩
  | confidential =>
      simp only [mayRead, isAdmin, State.mayRead, Tx.ok_bind, ok_load, Tx.ok_pure]
      constructor
      · rintro ⟨_, _, ⟨rfl, rfl⟩, hb, rfl⟩
        exact ⟨hb, rfl⟩
      · rintro ⟨hb, rfl⟩
        exact ⟨_, s, ⟨rfl, rfl⟩, hb, rfl⟩

/-- The gate lets a snapshot pass as it is, or stops the call. -/
@[simp] theorem gateSnapshotForPrivacy_ok {x y : CredentialSnapshot} :
    gateSnapshotForPrivacy requester id x e s = .ok (y, t) ↔
      s.mayRead requester (s.privacy id) = true ∧ x = y ∧ s = t := by
  simp only [gateSnapshotForPrivacy, credentialPrivacy, Tx.ok_bind, ok_load, Tx.ok_pure, mayRead_ok,
    ok_require]
  constructor
  · rintro ⟨_, _, ⟨_, _, ⟨rfl, rfl⟩, rfl, rfl⟩, _, _, ⟨rfl, rfl⟩, _, _, ⟨hb, rfl⟩, rfl, rfl⟩
    exact ⟨hb, rfl, rfl⟩
  · rintro ⟨hb, rfl, rfl⟩
    exact ⟨_, s, ⟨_, s, ⟨rfl, rfl⟩, rfl, rfl⟩, _, s, ⟨rfl, rfl⟩, (), s, ⟨hb, rfl⟩, rfl, rfl⟩

/-- The end of a query for a snapshot. -/
theorem gated_ok {o o' : Option CredentialSnapshot} :
    (ifSomeElse o (fun x => do
        let gated ← gateSnapshotForPrivacy requester id x
        return some gated) (pure none) : Contract (Option CredentialSnapshot)) e s = .ok (o', t) ↔
      (o.isSome = true → s.mayRead requester (s.privacy id) = true) ∧ o = o' ∧ s = t := by
  cases o with
  | none => simp
  | some x => simp [and_assoc]

/-- A successful query for a version returns what the history has of it. -/
theorem getCredentialVersion_ok {o : Option CredentialSnapshot} :
    getCredentialVersion requester id n e s = .ok (o, t) ↔ e.authorized requester = true ∧
      (((s.log id).ofVersion n).isSome = true → s.mayRead requester (s.privacy id) = true) ∧
      (s.log id).ofVersion n = o ∧ s = t := by
  simp only [getCredentialVersion, Tx.ok_bind, ok_requireAuth]
  constructor
  · rintro ⟨_, _, ⟨hauth, rfl⟩, o', u, hload, hrest⟩
    rw [loadSnapshotByVersion_ok] at hload
    obtain ⟨rfl, rfl⟩ := Prod.mk.inj (Except.ok.inj hload)
    exact ⟨hauth, gated_ok.mp hrest⟩
  · rintro ⟨hauth, hrest⟩
    exact ⟨(), s, ⟨hauth, rfl⟩, _, s, loadSnapshotByVersion_ok, gated_ok.mpr hrest⟩

end Queries

/-- The versions of a credential are stable, in every reachable state: retained times
increase, versions are consecutive and end in the version count, there are as many of
them as there are times, at most `maxCredentialSnapshots`, each retained time has a
snapshot and nothing else has; a query for version `n` returns nothing or a snapshot
with this number, and a version up to the count that is not found is never found
again. -/
theorem versions_stable {w : World} (h : Reachable w) (id : Nat) :
    (w.state.log id).times.Pairwise (· < ·) ∧
    (∃ first, (w.state.log id).versions = List.range' (first + 1) (w.state.log id).times.length) ∧
    (∀ e, ∃ count, credentialVersionCount id e w.state = .ok (count, w.state) ∧
      ∀ last, (w.state.log id).versions.getLast? = some last → last = count) ∧
    (w.state.log id).versions.length = (w.state.log id).times.length ∧
    (w.state.log id).times.length ≤ maxCredentialSnapshots ∧
    (∀ time, (∃ x, w.state.get (.credentialSnapshot id time) = some x) ↔
      time ∈ (w.state.log id).times) ∧
    (∀ e requester n x t, getCredentialVersion requester id n e w.state = .ok (some x, t) →
      x.version = n) ∧
    ∀ e requester n count t, credentialVersionCount id e w.state = .ok (count, w.state) →
      n ≤ count → getCredentialVersion requester id n e w.state = .ok (none, t) →
      ∀ ks w', Run Step w ks w' → ∀ e' requester', e'.authorized requester' = true →
        getCredentialVersion requester' id n e' w'.state = .ok (none, w'.state) := by
  have hchronicle := h.chronicle
  have hwf := hchronicle.wf id
  refine ⟨hwf.increasing, hwf.consecutive, fun e => ⟨_, credentialVersionCount_ok, ?_⟩,
    hwf.length_versions, hchronicle.bounded id, fun time => ?_, ?_, ?_⟩
  · intro last hlast
    simp [VersionLog.newest, hlast]
  · rw [← hwf.entries time, Option.isSome_iff_exists]
    rfl
  · intro e requester n x t hx
    exact hwf.tag_of_ofVersion (getCredentialVersion_ok.mp hx).2.2.1
  · intro e requester n count t hcount hle hnone ks w' hrun e' requester' hauth
    obtain ⟨rfl, -⟩ := Prod.mk.inj (Except.ok.inj (hcount.symm.trans credentialVersionCount_ok))
    have hnot : n ∉ (w.state.log id).versions := fun hmem => by
      have hsome := hwf.ofVersion_isSome.mpr hmem
      rw [(getCredentialVersion_ok.mp hnone).2.2.1] at hsome
      cases hsome
    have hlater := forgotten_of_run h hrun hle hnot
    have hgone : (w'.state.log id).ofVersion n = none := by
      rw [← Option.not_isSome_iff_eq_none]
      exact fun hsome => hlater (((h.run hrun).chronicle.wf id).ofVersion_isSome.mp hsome)
    exact getCredentialVersion_ok.mpr ⟨hauth, by simp [hgone], hgone, rfl⟩

/-- Three attestations, two of them at the same time, leave two versions. -/
theorem versions_stable_overwritten : ∃ w, Reachable w ∧ (w.state.log 1).versions = [1, 2] ∧
    (w.state.log 1).times.length = 2 := by
  have hplay : (play (initialised ⟨8⟩) [([⟨8⟩], 1, .registerOracle ⟨20⟩),
      ([⟨8⟩], 1, .registerOracle ⟨21⟩), ([⟨20⟩], 2, .attest ⟨20⟩ [1] [2]),
      ([⟨21⟩], 2, .attest ⟨21⟩ [1] [2]), ([⟨20⟩], 5, .attest ⟨20⟩ [1] [2])]).any
      (fun w => decide ((w.state.log 1).versions = [1, 2])) = true := by
    decide +kernel
  obtain ⟨w, hw, hversions⟩ := (Option.any_eq_true _ _).mp hplay
  rw [decide_eq_true_eq] at hversions
  obtain ⟨-, -, -, hlength, -⟩ := versions_stable (reachable_of_play hw) 1
  exact ⟨w, reachable_of_play hw, hversions, by simpa [hversions] using hlength.symm⟩

/-! ## Points in time -/

section Search

variable {e : Env} {s t : State} {requester : Address} {id time : Nat} {times : List Nat}

/-- The binary search cuts the times where they pass the point in time. -/
theorem searchFrom_ok (hincreasing : times.Pairwise (· < ·)) (fuel lo hi : Nat)
    (hfuel : hi ≤ lo + fuel) (hle : lo ≤ hi) (hhi : hi ≤ times.length)
    (hlow : ∀ t ∈ times.take lo, t ≤ time) (hhigh : ∀ t ∈ times.drop hi, time < t) :
    ∃ n, searchFrom times time fuel lo hi e s = .ok (n, s) ∧ n ≤ times.length ∧
      (∀ t ∈ times.take n, t ≤ time) ∧ ∀ t ∈ times.drop n, time < t := by
  induction fuel generalizing lo hi with
  | zero =>
      obtain rfl : lo = hi := by omega
      exact ⟨lo, rfl, hhi, hlow, hhigh⟩
  | succ fuel ih =>
      by_cases hlt : lo < hi
      · have hmid : lo + (hi - lo) / 2 < times.length := by omega
        have hget : times[lo + (hi - lo) / 2]? = some times[lo + (hi - lo) / 2] :=
          List.getElem?_eq_getElem hmid
        by_cases hfound : times[lo + (hi - lo) / 2] ≤ time
        · -- everything up to the middle is not later than it
          have hcut : ∀ t ∈ times.take (lo + (hi - lo) / 2 + 1), t ≤ time := by
            intro t ht
            obtain ⟨i, hi', rfl⟩ := List.mem_take_iff_getElem.mp ht
            rcases Nat.lt_or_ge i (lo + (hi - lo) / 2) with hbefore | hafter
            · have := List.pairwise_iff_getElem.mp hincreasing i (lo + (hi - lo) / 2) (by omega) hmid
                hbefore
              omega
            · obtain rfl : i = lo + (hi - lo) / 2 := by omega
              exact hfound
          obtain ⟨n, hn, hrest⟩ := ih (lo + (hi - lo) / 2 + 1) hi (by omega) (by omega)
            hhi hcut hhigh
          refine ⟨n, ?_, hrest⟩
          simp [searchFrom, hlt, hget, hfound, hn]
        · -- everything from the middle on is not earlier than it
          have hcut : ∀ t ∈ times.drop (lo + (hi - lo) / 2), time < t := by
            intro t ht
            obtain ⟨i, hi', rfl⟩ := List.mem_drop_iff_getElem.mp ht
            rcases Nat.eq_zero_or_pos i with rfl | hpos
            · simpa using hfound
            · have := List.pairwise_iff_getElem.mp hincreasing (lo + (hi - lo) / 2)
                (lo + (hi - lo) / 2 + i) hmid (by omega) (by omega)
              omega
          obtain ⟨n, hn, hrest⟩ := ih lo (lo + (hi - lo) / 2) (by omega) (by omega)
            (by omega) hlow hcut
          have hlater : time < times[lo + (hi - lo) / 2] := by omega
          refine ⟨n, ?_, hrest⟩
          simp [searchFrom, hlt, hget, hlater, hn]
      · obtain rfl : lo = hi := by omega
        exact ⟨lo, by simp [searchFrom], hhi, hlow, hhigh⟩

theorem loadSnapshotAtOrBefore_ok (hwf : (s.log id).Wf CredentialSnapshot.version) :
    loadSnapshotAtOrBefore id time e s = .ok ((s.log id).asOf time, s) := by
  have htimes : (s.log id).times = (s.get (.credentialSnapshotTimestamps id)).getD [] := rfl
  obtain ⟨n, hn, hle, hlow, hhigh⟩ : ∃ n, searchFrom (s.log id).times time (s.log id).times.length 0
      (s.log id).times.length e s = .ok (n, s) ∧ n ≤ (s.log id).times.length ∧
      (∀ t ∈ (s.log id).times.take n, t ≤ time) ∧ ∀ t ∈ (s.log id).times.drop n, time < t :=
    searchFrom_ok hwf.increasing _ _ _ (by omega) (Nat.zero_le _) le_rfl (by simp) (by simp)
  rw [VersionLog.asOf_of_cut hlow hhigh]
  simp only [loadSnapshotAtOrBefore, Tx.ok_bind, ok_load]
  refine ⟨_, s, ⟨rfl, rfl⟩, n, s, by rw [← htimes]; exact hn, ?_⟩
  rw [← htimes]
  rcases Nat.eq_zero_or_pos n with rfl | hpos
  · simp
  · have hlast : (s.log id).times[n - 1]? = some (s.log id).times[n - 1] :=
      List.getElem?_eq_getElem (by omega)
    have hcut : ((s.log id).times.take n).getLast? = some (s.log id).times[n - 1] := by
      rw [List.getLast?_eq_getElem?, List.length_take, Nat.min_eq_left hle,
        List.getElem?_take_of_lt (by omega), hlast]
    have hne : n ≠ 0 := by omega
    simp only [if_neg hne, Tx.ok_bind, Tx.ok_fromSome, ok_load]
    exact ⟨_, s, ⟨hlast, rfl⟩, by rw [hcut]; rfl, rfl⟩

/-- A query for a point in time returns what the history has of it. -/
theorem getCredentialAtTime_ok (hwf : (s.log id).Wf CredentialSnapshot.version)
    {o : Option CredentialSnapshot} :
    getCredentialAtTime requester id time e s = .ok (o, t) ↔ e.authorized requester = true ∧
      (((s.log id).asOf time).isSome = true → s.mayRead requester (s.privacy id) = true) ∧
      (s.log id).asOf time = o ∧ s = t := by
  simp only [getCredentialAtTime, Tx.ok_bind, ok_requireAuth]
  constructor
  · rintro ⟨_, _, ⟨hauth, rfl⟩, o', u, hload, hrest⟩
    rw [loadSnapshotAtOrBefore_ok hwf] at hload
    obtain ⟨rfl, rfl⟩ := Prod.mk.inj (Except.ok.inj hload)
    exact ⟨hauth, gated_ok.mp hrest⟩
  · rintro ⟨hauth, hrest⟩
    exact ⟨(), s, ⟨hauth, rfl⟩, _, s, loadSnapshotAtOrBefore_ok hwf, gated_ok.mpr hrest⟩

end Search

/-! ## What is in force -/

/-- The newest snapshot of every credential is what is in force. -/
def Faithful (w : World) : Prop :=
  ∀ id, (w.state.log id).latest.map CredentialSnapshot.view = w.state.current id

section Force

variable {w w₀ w₁ w₂ : World} {k : Event} {ks ls : List Event} {id time oldest : Nat}

theorem faithful_genesis (h : Genesis w) : Faithful w := by
  intro id
  have htimes : (w.state.log id).times = [] := by
    simp [State.log, h.get (k := .credentialSnapshotTimestamps id) (by simp)]
  have hrecord : w.state.record id = none := by
    simp [State.record, State.hashes, h.get (k := .credentialHashes id) (by simp)]
  simp [VersionLog.latest, htimes, State.current, hrecord]

theorem Faithful.step (h : Faithful w) (hw : Reachable w) (hstep : Step w k w₁)
    (hvalid : k.call.RejectsValid w.state k.env) : Faithful w₁ := by
  intro id
  obtain ⟨hlogged, hclock, -⟩ := hstep.logged hw id
  cases hlogged with
  | same hlog hcurrent => rw [hlog, hcurrent, h id]
  | noted oracle invalidated hlog hcurrent =>
      obtain ⟨version, hlatest⟩ := VersionLog.latest_record maxCredentialSnapshots
        (fun version => ⟨id, oracle, invalidated, k.env.timestamp, version⟩) (hw.chronicle.wf id)
        (fun t ht => (hw.chronicle.past id t ht).trans hclock) (by decide)
      rw [hlog, hlatest, hcurrent hvalid]
      rfl

theorem faithful_of_run (h₀ : Genesis w₀)
    (hrun : Run (Guarded Step (OnCalls Call.RejectsValid)) w₀ ks w) : Faithful w := by
  refine (hrun.invariant (I := fun v => Reachable v ∧ Faithful v)
    ⟨.of_genesis h₀, faithful_genesis h₀⟩ ?_).2
  rintro v k v' ⟨hv, hfaithful⟩ ⟨hstep, hvalid⟩
  exact ⟨hv.step hstep, hfaithful.step hv hstep hvalid⟩

/-- Later snapshots do not change what is known of an earlier time, as long as the time
is covered. -/
theorem asOf_of_run (h : Reachable w₁) (hrun : Run Step w₁ ls w₂)
    (hlater : ∀ k ∈ ls, time < k.env.timestamp)
    (holdest : (w₂.state.log id).times.head? = some oldest) (hle : oldest ≤ time) :
    (w₂.state.log id).asOf time = (w₁.state.log id).asOf time ∧
      ∃ o, (w₁.state.log id).times.head? = some o ∧ o ≤ time := by
  induction hrun generalizing oldest with
  | start => exact ⟨rfl, oldest, holdest, hle⟩
  | @next ks v v' k hrun hstep ih =>
      have hv := h.run hrun
      obtain ⟨hlogged, hclock, -⟩ := hstep.logged hv id
      have hpast : ∀ t ∈ (v.state.log id).times, t ≤ k.env.timestamp := fun t ht =>
        (hv.chronicle.past id t ht).trans hclock
      have htime := hlater k List.mem_cons_self
      have hrest := fun k' hk' => hlater k' (List.mem_cons_of_mem k hk')
      cases hlogged with
      | same hlog =>
          rw [hlog] at holdest ⊢
          exact ih hrest holdest hle
      | noted oracle invalidated hlog =>
          rw [hlog] at holdest ⊢
          obtain ⟨o, ho, hole⟩ :=
            VersionLog.oldest_record (hv.chronicle.wf id) htime holdest hle
          rw [VersionLog.asOf_record_of_lt (hv.chronicle.wf id) hpast (fun _ => rfl) htime holdest hle]
          exact ih hrest ho hole

/-- In every run in which no dispute against an invalidated credential is rejected, the
newest snapshot of a credential is always what is in force; and a query for a time that
the retained snapshots cover, by someone who may read them, returns what was in force
after the last call up to this time. -/
theorem history_faithful (h₀ : Genesis w₀)
    (hrun : Run (Guarded Step (OnCalls Call.RejectsValid)) w₀ ks w₁) :
    (∀ id, (w₁.state.log id).latest.map CredentialSnapshot.view = w₁.state.current id) ∧
    ∀ ls w₂ time, Run (Guarded Step (OnCalls Call.RejectsValid)) w₁ ls w₂ → w₁.clock ≤ time →
      (∀ k ∈ ls, time < k.env.timestamp) →
      ∀ id oldest, (w₂.state.log id).times.head? = some oldest → oldest ≤ time →
      ∀ e requester, e.authorized requester = true →
        w₂.state.mayRead requester (w₂.state.privacy id) = true →
        ∃ x, getCredentialAtTime requester id time e w₂.state = .ok (some x, w₂.state) ∧
          w₁.state.current id = some x.view := by
  have hfaithful := faithful_of_run h₀ hrun
  have h₁ : Reachable w₁ := ⟨w₀, ks, h₀, hrun.unguard⟩
  refine ⟨hfaithful, fun ls w₂ time hlast hclock hlater id oldest holdest hle e requester hauth
    hread => ?_⟩
  obtain ⟨hsame, o, ho, -⟩ := asOf_of_run h₁ hlast.unguard hlater holdest hle
  rw [VersionLog.asOf_eq_latest fun t ht => (h₁.chronicle.past id t ht).trans hclock] at hsame
  -- something is retained, so there is a latest snapshot
  obtain ⟨x, hx⟩ : ∃ x, (w₁.state.log id).latest = some x := by
    obtain ⟨last, hlast⟩ : ∃ last, (w₁.state.log id).times.getLast? = some last :=
      Option.isSome_iff_exists.mp (by
        simpa using List.ne_nil_of_mem (List.mem_of_mem_head? ho))
    have hentry := ((h₁.chronicle.wf id).entries last).mpr (List.mem_of_getLast? hlast)
    simpa [VersionLog.latest, hlast] using Option.isSome_iff_exists.mp hentry
  refine ⟨x, ?_, ?_⟩
  · refine (getCredentialAtTime_ok ((h₁.run hlast.unguard).chronicle.wf id)).mpr ⟨hauth, ?_, ?_, rfl⟩
    · exact fun _ => hread
    · rw [hsame, hx]
  · rw [← hfaithful id, hx]
    rfl

end Force

/-- The first credential is attested by one oracle and then by another; a query for the
time between finds the first oracle. -/
theorem history_faithful_two_oracles : ∃ w x, Reachable w ∧
    getCredentialAtTime ⟨50⟩ 1 3 (signedBy [⟨50⟩] 9) w.state = .ok (some x, w.state) ∧
    x.oracle = ⟨20⟩ ∧ x.invalidated = false := by
  have hplay : (play (initialised ⟨8⟩) [([⟨8⟩], 1, .registerOracle ⟨20⟩),
      ([⟨8⟩], 1, .registerOracle ⟨21⟩), ([⟨20⟩], 2, .attest ⟨20⟩ [1] [2])]).any (fun w₁ =>
      decide (w₁.clock ≤ 3 ∧ w₁.state.current 1 = some (⟨20⟩, false) ∧
        (play w₁ [([⟨21⟩], 5, .attest ⟨21⟩ [1] [2])]).any (fun w₂ =>
          decide ((w₂.state.log 1).times.head? = some 2 ∧
            w₂.state.mayRead ⟨50⟩ (w₂.state.privacy 1) = true)) = true)) = true := by
    decide +kernel
  obtain ⟨w₁, hw₁, hchecks⟩ := (Option.any_eq_true _ _).mp hplay
  simp only [decide_eq_true_eq, Option.any_eq_true] at hchecks
  obtain ⟨hclock, hcurrent, w₂, hw₂, holdest, hread⟩ := hchecks
  obtain ⟨hfirst, hsha⟩ := run_of_play (w := initialised ⟨8⟩) rfl hw₁
  obtain ⟨hlast, -⟩ := run_of_play hsha hw₂
  -- no call of these runs is a vote
  have hguard : ∀ k, (∀ d a b, k.call ≠ .voteOnDispute d a b) →
      ∀ w, OnCalls Call.RejectsValid w k := by
    rintro ⟨e, c⟩ hne w
    cases c with
    | voteOnDispute d a b => exact absurd rfl (hne d a b)
    | _ => trivial
  obtain ⟨-, hquery⟩ := history_faithful (genesis_initialised ⟨8⟩)
    (hfirst.guard fun k hk => hguard k (by simp [eventsOf] at hk; rcases hk with rfl | rfl | rfl <;> simp))
  obtain ⟨x, hx, hview⟩ := hquery _ w₂ 3
    (hlast.guard fun k hk => hguard k (by simp [eventsOf] at hk; simp [hk])) hclock
    (by simp [eventsOf, signedBy, u64Max]) 1 2 holdest (by decide) (signedBy [⟨50⟩] 9) ⟨50⟩
    (by decide) hread
  obtain ⟨horacle, hflag⟩ := Prod.mk.inj (Option.some.inj (hview.symm.trans hcurrent))
  exact ⟨w₂, x, (reachable_of_play hw₁).run hlast, hx, horacle, hflag⟩

/-- A credential is invalidated, and a second dispute against it is rejected: the newest
snapshot says that it is valid, which it is not. -/
theorem rejection_forgets_invalidation : ∃ w x, Reachable w ∧
    (w.state.log 1).latest = some x ∧ x.invalidated = false ∧
    ∀ e, isCredentialInvalidated 1 e w.state = .ok (true, w.state) := by
  have hplay : (play (initialised ⟨8⟩) [([⟨8⟩], 1, .registerOracle ⟨20⟩),
      ([⟨8⟩], 1, .setDisputeThreshold 1), ([⟨20⟩], 2, .attest ⟨20⟩ [1] [2]),
      ([⟨30⟩], 3, .initiateCredentialDispute 1 ⟨30⟩ [7]), ([⟨20⟩], 4, .voteOnDispute 1 ⟨20⟩ true),
      ([⟨30⟩], 5, .initiateCredentialDispute 1 ⟨30⟩ [7]),
      ([⟨20⟩], 6, .voteOnDispute 2 ⟨20⟩ false)]).any (fun w =>
        decide ((w.state.log 1).latest.any (fun x => !x.invalidated) = true ∧
          w.state.invalidated 1 = true)) = true := by
    decide +kernel
  obtain ⟨w, hw, hchecks⟩ := (Option.any_eq_true _ _).mp hplay
  simp only [decide_eq_true_eq, Option.any_eq_true] at hchecks
  obtain ⟨⟨x, hx, hflag⟩, hinvalidated⟩ := hchecks
  exact ⟨w, x, reachable_of_play hw, hx, by simpa using hflag, fun e => by simp [hinvalidated]⟩

end Heirloom.Verifier
