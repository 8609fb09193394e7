import Heirloom.Lib.VersionLog
import Heirloom.Verifier.System

/-!
# What the entry points do

One specification for each part of the contract that the results are about: how
a snapshot is recorded (`recordCredentialSnapshot_spec`), how an id is found or
made (`mintOrReuseCredentialId_spec`), what an attestation leaves behind
(`attest_spec`, `createDerivedCredential_spec`) and what a vote does
(`voteOnDispute_spec`).
-/

namespace Heirloom.Verifier

open Transaction TypedStore Versions

/-! ## Views of the storage -/

namespace State

/-- `a` is a registered oracle. -/
def registered (s : State) (a : Address) : Bool := (s.get (.oracle a)).getD false

/-- A dispute against credential `id` has been upheld. -/
def invalidated (s : State) (id : Nat) : Bool := (s.get (.credentialInvalidated id)).getD false

/-- The number of credentials. -/
def count (s : State) : Nat := (s.get .credentialCount).getD 0

def hashes (s : State) (id : Nat) : Option (Bytes32 × Bytes32) := s.get (.credentialHashes id)

def attestation (s : State) (p c : Bytes32) : Option AttestationRecord := s.get (.attestation p c)

/-- The current record of credential `id`. -/
def record (s : State) (id : Nat) : Option AttestationRecord :=
  (s.hashes id).bind fun h => s.attestation h.1 h.2

/-- The snapshots of credential `id`. -/
def log (s : State) (id : Nat) : VersionLog CredentialSnapshot where
  times := (s.get (.credentialSnapshotTimestamps id)).getD []
  versions := (s.get (.credentialSnapshotVersions id)).getD []
  entry time := s.get (.credentialSnapshot id time)

def parent (s : State) (id : Nat) : Option Nat := s.get (.credentialParent id)

def dispute (s : State) (id : Nat) : Option Dispute := s.get (.disputeRecord id)

/-- The vote of `a` on dispute `id`. -/
def vote (s : State) (id : Nat) (a : Address) : Option Bool := s.get (.disputeVote id a)

/-- The open dispute of credential `id`, as the contract has it on file. -/
def openDispute (s : State) (id : Nat) : Option Nat := s.get (.credentialOpenDispute id)

/-- The number of disputes. -/
def disputeCount (s : State) : Nat := (s.get .disputeCount).getD 0

def threshold (s : State) : Nat := (s.get .disputeThreshold).getD defaultDisputeThreshold

end State

section Views

variable {areas : List Area} {s t : State} {id : Nat} {oracle : Address} {p c : Bytes32}

theorem SameBut.registered (h : SameBut areas s t) (ha : .oracles ∉ areas) :
    t.registered oracle = s.registered oracle :=
  congrArg (·.getD false) (h.get (k := .oracle oracle) ha)

theorem SameBut.invalidated (h : SameBut areas s t) (ha : .invalidations ∉ areas) :
    t.invalidated id = s.invalidated id :=
  congrArg (·.getD false) (h.get (k := .credentialInvalidated id) ha)

theorem SameBut.count (h : SameBut areas s t) (ha : .ids ∉ areas) : t.count = s.count :=
  congrArg (·.getD 0) (h.get (k := .credentialCount) ha)

theorem SameBut.hashes (h : SameBut areas s t) (ha : .ids ∉ areas) : t.hashes id = s.hashes id :=
  h.get (k := .credentialHashes id) ha

theorem SameBut.attestation (h : SameBut areas s t) (ha : .attestations ∉ areas) :
    t.attestation p c = s.attestation p c :=
  h.get (k := .attestation p c) ha

theorem SameBut.parent (h : SameBut areas s t) (ha : .parents ∉ areas) :
    t.parent id = s.parent id :=
  h.get (k := .credentialParent id) ha

theorem SameBut.record (h : SameBut areas s t) (ha : .attestations ∉ areas) (hi : .ids ∉ areas) :
    t.record id = s.record id := by
  simp only [State.record, h.hashes hi, h.attestation ha]

end Views

section Specs

variable {e : Env} {s t : State} {id : Nat} {oracle : Address} {invalidated : Bool}
  {p c : Bytes32}

/-! ## Snapshots -/

/-- Credential `id` has one more snapshot. -/
structure Recorded (now id : Nat) (oracle : Address) (invalidated : Bool) (s t : State) :
    Prop where
  own : t.log id = (s.log id).record maxCredentialSnapshots now
    fun version => ⟨id, oracle, invalidated, now, version⟩
  others : ∀ i, i ≠ id → t.log i = s.log i

theorem log_congr (htimes : t.get (.credentialSnapshotTimestamps id) =
      s.get (.credentialSnapshotTimestamps id))
    (hversions : t.get (.credentialSnapshotVersions id) = s.get (.credentialSnapshotVersions id))
    (hentry : ∀ time, t.get (.credentialSnapshot id time) = s.get (.credentialSnapshot id time)) :
    t.log id = s.log id := by
  simp only [State.log, htimes, hversions, hentry]

theorem SameBut.log {areas : List Area} (h : SameBut areas s t) (ha : .snapshots ∉ areas) :
    t.log id = s.log id :=
  log_congr (h.get ha) (h.get ha) fun _ => h.get ha

theorem log_put_snapshot {i time : Nat} {x : CredentialSnapshot} :
    State.log (s.put (.credentialSnapshot i time) x) id =
      if id = i then (s.log id).overwrite time x else s.log id := by
  split
  · next h =>
      subst h
      simp only [State.log, VersionLog.overwrite, VersionLog.mk.injEq]
      refine ⟨by simp, by simp, funext fun time' => ?_⟩
      by_cases htime : time' = time
      · subst htime
        simp
      · simp [htime]
  · next h => exact log_congr (by simp) (by simp) fun time' => by simp [h]

theorem log_erase_snapshot {i time : Nat} :
    State.log (s.erase (.credentialSnapshot i time)) id =
      if id = i then { s.log id with entry := Function.update (s.log id).entry time none }
      else s.log id := by
  split
  · next h =>
      subst h
      simp only [State.log, VersionLog.mk.injEq]
      refine ⟨by simp, by simp, funext fun time' => ?_⟩
      by_cases htime : time' = time
      · subst htime
        simp
      · simp [htime]
  · next h => exact log_congr (by simp) (by simp) fun time' => by simp [h]

theorem log_put_timestamps {i : Nat} {l : List Nat} :
    State.log (s.put (.credentialSnapshotTimestamps i) l) id =
      if id = i then { s.log id with times := l } else s.log id := by
  split
  · next h =>
      subst h
      simp [State.log]
  · next h => exact log_congr (by simp [h]) (by simp) fun time' => by simp

theorem log_put_versions {i : Nat} {l : List Nat} :
    State.log (s.put (.credentialSnapshotVersions i) l) id =
      if id = i then { s.log id with versions := l } else s.log id := by
  split
  · next h =>
      subst h
      simp [State.log]
  · next h => exact log_congr (by simp) (by simp [h]) fun time' => by simp

theorem recordCredentialSnapshot_spec :
    wp (recordCredentialSnapshot id oracle invalidated)
      (fun _ t => Recorded e.timestamp id oracle invalidated s t ∧ SameBut [.snapshots] s t) e s := by
  have hframe : wp (recordCredentialSnapshot id oracle invalidated)
      (fun _ t => SameBut [.snapshots] s t) e s := by
    simp [recordCredentialSnapshot]
  refine Tx.wp_and ?_ hframe
  have htimes : (s.log id).times = (s.get (.credentialSnapshotTimestamps id)).getD [] := rfl
  have hversions : (s.log id).versions = (s.get (.credentialSnapshotVersions id)).getD [] := rfl
  simp only [recordCredentialSnapshot, Tx.wp_bind, wp_timestamp, wp_load, Tx.wp_ite, wp_save,
    wp_u32, wp_remove, ← htimes, ← hversions, List.length_append, List.length_singleton]
  refine ⟨fun hlast => ⟨?_, fun i hi => ?_⟩, fun hlast _ => ⟨fun hfull => ⟨?_, fun i hi => ?_⟩,
    fun hfits => ⟨?_, fun i hi => ?_⟩⟩⟩
  · rw [log_put_snapshot, if_pos rfl, VersionLog.record, if_pos hlast]
  · rw [log_put_snapshot, if_neg hi]
  · rw [VersionLog.record, if_neg hlast, if_pos hfull]
    simp only [log_put_versions, log_put_timestamps, log_erase_snapshot, log_put_snapshot, if_true]
    rfl
  · simp only [log_put_versions, log_put_timestamps, log_erase_snapshot, log_put_snapshot, if_neg hi]
  · rw [VersionLog.record, if_neg hlast, if_neg hfits]
    simp only [log_put_versions, log_put_timestamps, log_put_snapshot, if_true]
    rfl
  · simp only [log_put_versions, log_put_timestamps, log_put_snapshot, if_neg hi]

/-! ## Attestations -/

/-- The pair with hashes `p` and `c` has id `id`, an old one or the next. -/
inductive Minted (p c : Bytes32) (id : Nat) (s t : State) : Prop
  | reused (r : AttestationRecord) (hr : s.attestation p c = some r) (hid : r.credentialId = id)
      (hcount : t.count = s.count) (hhashes : ∀ i, t.hashes i = s.hashes i)
  | fresh (hnone : s.attestation p c = none) (hid : id = s.count + 1) (hcount : t.count = id)
      (hhashes : ∀ i, t.hashes i = if i = id then some (p, c) else s.hashes i)

theorem mintOrReuseCredentialId_spec :
    wp (mintOrReuseCredentialId p c) (fun id t => Minted p c id s t ∧ SameBut [.ids] s t) e s := by
  have hframe : wp (mintOrReuseCredentialId p c) (fun _ t => SameBut [.ids] s t) e s := by
    simp [mintOrReuseCredentialId]
  refine Tx.wp_and ?_ hframe
  simp only [mintOrReuseCredentialId, Tx.wp_bind, wp_load, Tx.wp_ifSomeElse, Tx.wp_pure, wp_u64,
    wp_save]
  refine ⟨fun r hr => .reused r hr rfl rfl fun _ => rfl, fun hnone _ => .fresh hnone rfl ?_ ?_⟩
  · simp [State.count]
  · intro i
    split
    · next hi =>
        subst hi
        simp [State.hashes]
    · next hi =>
        have hne : i ≠ (s.get .credentialCount).getD 0 + 1 := hi
        simp [State.hashes, hne]

/-- An attestation of the pair with hashes `p` and `c`, which has id `id`. -/
structure Attests (e : Env) (oracle : Address) (p c : Bytes32) (id : Nat) (s t : State) :
    Prop where
  registered : s.registered oracle = true
  minted : Minted p c id s t
  own : t.attestation p c =
    some ⟨id, oracle, saturatingAdd64 e.timestamp consistencyCheckInterval⟩
  others : ∀ p' c', ¬ (p' = p ∧ c' = c) → t.attestation p' c' = s.attestation p' c'
  snapshot : Recorded e.timestamp id oracle (s.invalidated id) s t

theorem storeAttestation_spec :
    wp (storeAttestation id oracle p c) (fun _ t =>
      t.attestation p c =
        some ⟨id, oracle, saturatingAdd64 e.timestamp consistencyCheckInterval⟩ ∧
      (∀ p' c', ¬ (p' = p ∧ c' = c) → t.attestation p' c' = s.attestation p' c') ∧
      Recorded e.timestamp id oracle (s.invalidated id) s t ∧
      SameBut [.attestations, .snapshots] s t) e s := by
  simp only [storeAttestation, Tx.wp_bind, wp_timestamp, wp_save, wp_isCredentialInvalidated]
  refine Tx.wp_mono recordCredentialSnapshot_spec ?_
  rintro _ t ⟨hrecorded, hframe⟩
  have hflag : (Store.get (Store.put s (.attestation p c)
      ⟨id, oracle, saturatingAdd64 e.timestamp consistencyCheckInterval⟩)
        (.credentialInvalidated id)).getD false = s.invalidated id := by
    simp [State.invalidated]
  have hlog : ∀ i x, State.log (s.put (.attestation p c) x) i = s.log i := fun i x =>
    log_congr (by simp) (by simp) fun _ => by simp
  rw [hflag] at hrecorded
  refine ⟨?_, fun p' c' hne => ?_, ⟨?_, fun i hi => ?_⟩, ?_⟩
  · exact (hframe.get (k := .attestation p c) (by simp)).trans Store.get_put_self
  · refine (hframe.get (k := .attestation p' c') (by simp)).trans (Store.get_put_of_ne ?_)
    simpa using hne
  · rw [hrecorded.own, hlog]
  · rw [hrecorded.others i hi, hlog]
  · refine SameBut.trans (t := s.put (.attestation p c) _) (by simp) fun k hk => hframe.get ?_
    simp only [List.mem_cons, not_or] at hk ⊢
    exact hk.2

theorem Minted.congr {u : State} {areas : List Area} (h : Minted p c id s t)
    (hframe : SameBut areas t u) (ha : .ids ∉ areas) : Minted p c id s u := by
  have hcount : u.count = t.count := hframe.count ha
  have hhashes : ∀ i, u.hashes i = t.hashes i := fun i => hframe.hashes ha
  cases h with
  | reused r hr hid hc hh =>
      exact .reused r hr hid (hcount.trans hc) fun i => (hhashes i).trans (hh i)
  | fresh hnone hid hc hh =>
      exact .fresh hnone hid (hcount.trans hc) fun i => (hhashes i).trans (hh i)

/-- The common end of the two ways to attest. -/
theorem storeAttestation_attests (hregistered : s.registered oracle = true)
    (hminted : Minted p c id s t) (hframe : SameBut [.ids, .parents] s t) :
    wp (storeAttestation id oracle p c) (fun _ u => Attests e oracle p c id s u ∧
      SameBut [.attestations, .snapshots] t u) e t := by
  refine Tx.wp_mono storeAttestation_spec ?_
  rintro _ u ⟨hown, hothers, hrecorded, hlast⟩
  have hflag : t.invalidated id = s.invalidated id := hframe.invalidated (by simp)
  have hlog : ∀ i, t.log i = s.log i := fun i => hframe.log (by simp)
  rw [hflag] at hrecorded
  refine ⟨⟨hregistered, hminted.congr hlast (by simp), hown, fun p' c' hne => ?_, ?_, ?_⟩, hlast⟩
  · exact (hothers p' c' hne).trans (hframe.get (k := .attestation p' c') (by simp))
  · rw [hrecorded.own, hlog]
  · exact fun i hi => (hrecorded.others i hi).trans (hlog i)

theorem attest_spec {proof claim : Bytes} :
    wp (attest oracle proof claim) (fun id t =>
      Attests e oracle (e.sha256 proof) (e.sha256 claim) id s t ∧ proof ≠ [] ∧ claim ≠ []) e s := by
  simp only [attest, requireRegisteredOracle, Tx.wp_bind, wp_require, wp_isOracle, wp_requireAuth,
    wp_sha256, Tx.wp_pure]
  intro hproof hclaim hregistered _
  refine Tx.wp_mono mintOrReuseCredentialId_spec ?_
  rintro id t ⟨hminted, hids⟩
  have hframe : SameBut [.ids, .parents] s t := fun k hk => hids.get (by simp_all)
  refine Tx.wp_mono (storeAttestation_attests hregistered hminted hframe) ?_
  exact fun _ u hu => ⟨hu.1, hproof, hclaim⟩

/-- A derived credential: the parent is known and its chain valid, and it is the parent of
`id` from now on. -/
structure Derives (e : Env) (oracle : Address) (parentId : Nat) (p c : Bytes32) (id : Nat)
    (s t : State) : Prop extends Attests e oracle p c id s t where
  known : (s.hashes parentId).isSome = true
  valid : validateCredentialChain parentId e s = .ok ((), s)
  apart : id ≠ parentId
  before : s.parent id = none ∨ s.parent id = some parentId
  parents : ∀ i, t.parent i = if i = id then some parentId else s.parent i

theorem createDerivedCredential_spec {parentId : Nat} {proof claim : Bytes} :
    wp (createDerivedCredential oracle parentId proof claim) (fun id t =>
      Derives e oracle parentId (e.sha256 proof) (e.sha256 claim) id s t ∧ proof ≠ [] ∧
        claim ≠ []) e s := by
  simp only [createDerivedCredential, requireRegisteredOracle, Tx.wp_bind, wp_require, wp_load,
    wp_validateCredentialChain, wp_isOracle, wp_requireAuth, wp_sha256, Tx.wp_pure]
  intro hproof hclaim hknown _ hvalid hregistered _
  refine Tx.wp_mono mintOrReuseCredentialId_spec ?_
  rintro id t ⟨hminted, hids⟩
  simp only [wp_loadParent, wp_save]
  intro hapart hbefore
  have hparent : ∀ i, t.get (.credentialParent i) = s.parent i := fun i =>
    hids.get (k := .credentialParent i) (by simp)
  have hset : SameBut [.parents] t (t.put (.credentialParent id) parentId) := by simp
  have hframe : SameBut [.ids, .parents] s (t.put (.credentialParent id) parentId) := by
    refine (sameBut_put (by simp)).mpr fun k hk => hids.get (by simp_all)
  refine Tx.wp_mono (storeAttestation_attests hregistered (hminted.congr hset (by simp)) hframe) ?_
  rintro _ u ⟨hattests, hlast⟩
  refine ⟨⟨hattests, hknown, hvalid, hapart, ?_, fun i => ?_⟩, hproof, hclaim⟩
  · rw [hparent id] at hbefore
    cases hp : s.parent id with
    | none => exact .inl rfl
    | some q => exact .inr (by simpa [hp] using hbefore)
  · refine (hlast.get (k := .credentialParent i) (by simp)).trans ?_
    split
    · next hi =>
        subst hi
        exact Store.get_put_self
    · next hi => rw [Store.get_put_of_ne (by simpa using hi), hparent i]

theorem exec_derives (a : Address) (i : Nat) (proof claim : Bytes) :
    wp (exec (.createDerivedCredential a i proof claim)) (fun _ t =>
      (∃ id, Derives e a i (e.sha256 proof) (e.sha256 claim) id s t) ∧ proof ≠ [] ∧ claim ≠ []) e s := by
  simp only [exec, Tx.wp_bind, Tx.wp_pure]
  exact Tx.wp_mono createDerivedCredential_spec fun id t ht => ⟨⟨id, ht.1⟩, ht.2⟩

/-! ## Disputes -/

theorem loadAttestationRecord_ok : loadAttestationRecord id e s = .ok (s.record id, s) := by
  cases h : s.hashes id with
  | none =>
      have hget : s.get (.credentialHashes id) = none := h
      simp [loadAttestationRecord, State.record, h, hget]
  | some hs =>
      have hget : s.get (.credentialHashes id) = some hs := h
      simp only [loadAttestationRecord, Tx.ok_bind, ok_load, Tx.ok_ifSomeElse, State.record, h]
      exact ⟨some hs, s, ⟨hget, rfl⟩, .inl ⟨hs, rfl, rfl, rfl⟩⟩

@[simp ↓] theorem wp_loadAttestationRecord {Q : Option AttestationRecord → State → Prop} :
    wp (loadAttestationRecord id) Q e s ↔ Q (s.record id) s := by
  simp [wp, loadAttestationRecord_ok]

/-- A dispute with one more vote. -/
def Dispute.counted (x : Dispute) (vote : Bool) : Dispute :=
  if vote = true then { x with votesFor := x.votesFor + 1 }
  else { x with votesAgainst := x.votesAgainst + 1 }

/-- A dispute that is closed. -/
def Dispute.closed (x : Dispute) (upheld : Bool) (now : Nat) : Dispute :=
  { x with status := if upheld then .upheld else .rejected, resolvedAt := now }

@[simp ↓] theorem wp_count {x : Dispute} {vote : Bool} {Q : Dispute → State → Prop} :
    wp (x.count vote) Q e s ↔
      ((if vote = true then x.votesFor + 1 else x.votesAgainst + 1) ≤ u32Max →
        Q (x.counted vote) s) := by
  cases vote <;> simp [Dispute.count, Dispute.counted]

/-- The snapshot that a closed dispute leaves, if the credential has a record. -/
structure Noted (e : Env) (x : Dispute) (upheld : Bool) (s t : State) : Prop where
  recorded : ∀ r, s.record x.credentialId = some r →
    Recorded e.timestamp x.credentialId r.oracle upheld s t
  unknown : s.record x.credentialId = none → ∀ c, t.log c = s.log c

/-- What becomes of dispute `d`, now `x`, once it is known whether it is decided. -/
inductive Outcome (e : Env) (d : Nat) (x : Dispute) (s t : State) : Option Bool → Prop
  | pending (hdispute : t.dispute d = some x) (hopen : ∀ c, t.openDispute c = s.openDispute c)
      (hflag : ∀ c, t.invalidated c = s.invalidated c) (hlog : ∀ c, t.log c = s.log c) :
      Outcome e d x s t none
  | decided (upheld : Bool) (hdispute : t.dispute d = some (x.closed upheld e.timestamp))
      (hopen : ∀ c, t.openDispute c = if c = x.credentialId then none else s.openDispute c)
      (hflag : ∀ c, t.invalidated c =
        (s.invalidated c || (upheld && decide (c = x.credentialId))))
      (hnoted : Noted e x upheld s t) : Outcome e d x s t (some upheld)

/-- A vote of `voter` on dispute `d`, which was `x`. -/
structure Votes (e : Env) (d : Nat) (voter : Address) (vote : Bool) (x : Dispute) (s t : State) :
    Prop where
  before : s.dispute d = some x
  pending : x.status = .opened
  registered : s.registered voter = true
  first : s.vote d voter = none
  votes : ∀ d' a, t.vote d' a = if d' = d ∧ a = voter then some vote else s.vote d' a
  others : ∀ d', d' ≠ d → t.dispute d' = s.dispute d'
  outcome : Outcome e d (x.counted vote) s t ((x.counted vote).resolution s.threshold)

theorem credentialId_counted {x : Dispute} {vote : Bool} :
    (x.counted vote).credentialId = x.credentialId := by
  cases vote <;> rfl

/-- What a closed dispute has written of the credential, before the snapshot. -/
structure Cleared (x : Dispute) (upheld : Bool) (s t : State) : Prop where
  frame : SameBut [.disputes, .invalidations] s t
  pointer : ∀ c, t.openDispute c = if c = x.credentialId then none else s.openDispute c
  flag : ∀ c, t.invalidated c = (s.invalidated c || (upheld && decide (c = x.credentialId)))
  dispute : ∀ d, t.dispute d = s.dispute d
  vote : ∀ d a, t.vote d a = s.vote d a

theorem Cleared.log {x : Dispute} {upheld : Bool} (h : Cleared x upheld s t) (c : Nat) :
    t.log c = s.log c :=
  h.frame.log (by simp)

theorem Cleared.record {x : Dispute} {upheld : Bool} (h : Cleared x upheld s t) (c : Nat) :
    t.record c = s.record c :=
  h.frame.record (by simp) (by simp)

theorem cleared_erase {x : Dispute} :
    Cleared x false s (s.erase (.credentialOpenDispute x.credentialId)) where
  frame := by simp
  pointer c := by
    split
    · next hc =>
        subst hc
        exact Store.get_erase_self
    · next hc => exact Store.get_erase_of_ne (by simpa using hc)
  flag c := by simp [State.invalidated]
  dispute d := by simp [State.dispute]
  vote d a := by simp [State.vote]

theorem cleared_put {x : Dispute} : Cleared x true s
    ((s.erase (.credentialOpenDispute x.credentialId)).put
      (.credentialInvalidated x.credentialId) true) where
  frame := by simp
  pointer c := (Store.get_put_of_ne (by simp)).trans (cleared_erase.pointer c)
  flag c := by
    by_cases hc : c = x.credentialId
    · subst hc
      simp [State.invalidated]
    · simp [State.invalidated, hc]
  dispute d := by simp [State.dispute]
  vote d a := by simp [State.vote]

/-- Closing a dispute, up to the record itself. -/
theorem resolveDispute_spec {x : Dispute} {upheld : Bool} :
    wp (resolveDispute x upheld) (fun y t => y = x.closed upheld e.timestamp ∧
      ∃ u, Cleared x upheld s u ∧ SameBut [.snapshots] u t ∧ Noted e x upheld s t) e s := by
  have hrest : ∀ {y : Dispute} u, y = x.closed upheld e.timestamp → Cleared x upheld s u →
      (∀ r, u.record x.credentialId = some r →
        wp (recordCredentialSnapshot x.credentialId r.oracle upheld)
          (fun _ t => y = x.closed upheld e.timestamp ∧
            ∃ u, Cleared x upheld s u ∧ SameBut [.snapshots] u t ∧ Noted e x upheld s t) e u) ∧
      (u.record x.credentialId = none → y = x.closed upheld e.timestamp ∧
        ∃ v, Cleared x upheld s v ∧ SameBut [.snapshots] v u ∧ Noted e x upheld s u) := by
    intro y u hy hu
    rw [hu.record]
    refine ⟨fun r hr => Tx.wp_mono recordCredentialSnapshot_spec ?_, fun hnone => ?_⟩
    · rintro _ t ⟨hrecorded, hframe⟩
      refine ⟨hy, u, hu, hframe, fun r' hr' => ?_, fun hnone => by simp [hr] at hnone⟩
      obtain rfl := Option.some.inj (hr.symm.trans hr')
      exact ⟨by rw [hrecorded.own, hu.log], fun i hi => (hrecorded.others i hi).trans (hu.log i)⟩
    · exact ⟨hy, u, hu, by simp, fun r hr => by simp [hr] at hnone, fun _ => hu.log⟩
  simp only [resolveDispute, Tx.wp_bind, wp_timestamp, wp_remove, Tx.wp_onlyIf, wp_save, Tx.wp_pure,
    wp_loadAttestationRecord, Tx.wp_ifSome]
  refine ⟨fun hupheld => ?_, fun hrejected => ?_⟩
  · subst hupheld
    exact hrest _ rfl cleared_put
  · obtain rfl : upheld = false := by simpa using hrejected
    exact hrest _ rfl cleared_erase

theorem voteOnDispute_spec (d : Nat) (voter : Address) (vote : Bool) :
    wp (voteOnDispute d voter vote) (fun _ t => ∃ x, Votes e d voter vote x s t) e s := by
  simp only [voteOnDispute, requireRegisteredOracle, getDisputeThreshold, Tx.wp_bind, wp_load,
    Tx.wp_fromSome, wp_require, wp_isOracle, wp_requireAuth, wp_save, wp_count, Tx.wp_pure]
  intro x hx hpending hregistered _ hfirst _
  have hthreshold : (Store.get (Store.put s (.disputeVote d voter) vote)
      .disputeThreshold).getD defaultDisputeThreshold = s.threshold := by
    simp [State.threshold]
  rw [hthreshold]
  have hvote : ∀ d' a, State.vote (s.put (.disputeVote d voter) vote) d' a =
      if d' = d ∧ a = voter then some vote else s.vote d' a := by
    intro d' a
    split
    · next h =>
        obtain ⟨rfl, rfl⟩ := h
        exact Store.get_put_self
    · next h => exact Store.get_put_of_ne (by simpa using h)
  have hcast : SameBut [.disputes] s (s.put (.disputeVote d voter) vote) := by simp
  have hdispute : ∀ d', State.dispute (s.put (.disputeVote d voter) vote) d' = s.dispute d' :=
    fun d' => by simp [State.dispute]
  have hpointer : ∀ c, State.openDispute (s.put (.disputeVote d voter) vote) c =
      s.openDispute c := fun c => by simp [State.openDispute]
  generalize s.put (.disputeVote d voter) vote = u at hvote hcast hdispute hpointer
  have hflag : ∀ c, State.invalidated u c = s.invalidated c := fun c => hcast.invalidated (by simp)
  have hlog : ∀ c, State.log u c = s.log c := fun c => hcast.log (by simp)
  have hrecord : State.record u (x.counted vote).credentialId = s.record (x.counted vote).credentialId :=
    hcast.record (by simp) (by simp)
  have hput : ∀ (t : State) (y : Dispute), (∀ d', t.dispute d' = s.dispute d') →
      (∀ d' a, t.vote d' a = if d' = d ∧ a = voter then some vote else s.vote d' a) →
      Outcome e d (x.counted vote) s (t.put (.disputeRecord d) y)
        ((x.counted vote).resolution s.threshold) →
      ∃ x, Votes e d voter vote x s (t.put (.disputeRecord d) y) := by
    intro t y hsame hvotes houtcome
    refine ⟨x, hx, hpending, hregistered, by simpa [State.vote] using hfirst, fun d' a => ?_,
      fun d' hne => ?_, houtcome⟩
    · exact (Store.get_put_of_ne (by simp)).trans (hvotes d' a)
    · exact (Store.get_put_of_ne (by simpa using hne)).trans (hsame d')
  have hrecordput : ∀ (t : State) (y : Dispute), SameBut [.disputes] t (t.put (.disputeRecord d) y) :=
    fun t y => by simp
  simp only [Tx.wp_ifSomeElse, Tx.wp_pure]
  refine ⟨fun upheld hupheld => Tx.wp_mono resolveDispute_spec ?_, fun hnone => ?_⟩
  · rintro y t ⟨rfl, v, hcleared, hsnapshots, hnoted⟩
    refine hput t _ (fun d' => ?_) (fun d' a => ?_) ?_
    · exact (hsnapshots.get (k := .disputeRecord d') (by simp)).trans
        ((hcleared.dispute d').trans (hdispute d'))
    · exact (hsnapshots.get (k := .disputeVote d' a) (by simp)).trans
        ((hcleared.vote d' a).trans (hvote d' a))
    · rw [hupheld]
      refine .decided upheld Store.get_put_self (fun c => ?_) (fun c => ?_) ⟨fun r hr => ?_, fun hr c => ?_⟩
      · refine (Store.get_put_of_ne (by simp)).trans
          ((hsnapshots.get (k := .credentialOpenDispute c) (by simp)).trans ?_)
        exact (hcleared.pointer c).trans (by rw [hpointer])
      · rw [State.invalidated, (hrecordput t _).get (by simp), hsnapshots.get (by simp)]
        exact (hcleared.flag c).trans (by rw [hflag])
      · have hrecorded := hnoted.recorded r (hrecord.trans hr)
        refine ⟨?_, fun i hi => ?_⟩
        · rw [(hrecordput t _).log (by simp), hrecorded.own, hlog]
        · rw [(hrecordput t _).log (by simp), hrecorded.others i hi, hlog]
      · rw [(hrecordput t _).log (by simp), hnoted.unknown (hrecord.trans hr), hlog]
  · refine hput u _ hdispute hvote ?_
    rw [hnone]
    refine .pending Store.get_put_self (fun c => ?_) (fun c => ?_) fun c => ?_
    · exact (Store.get_put_of_ne (by simp)).trans (hpointer c)
    · rw [State.invalidated, (hrecordput u _).get (by simp)]
      exact hflag c
    · rw [(hrecordput u _).log (by simp), hlog]

/-- A dispute `d` is opened against credential `c`. -/
structure Opens (e : Env) (c d : Nat) (initiator : Address) (reason : Bytes) (s t : State) :
    Prop where
  known : (s.hashes c).isSome = true
  free : s.openDispute c = none
  next : d = s.disputeCount + 1
  count : t.disputeCount = d
  disputes : ∀ i, t.dispute i =
    if i = d then some ⟨d, c, initiator, reason, .opened, 0, 0, e.timestamp, 0⟩ else s.dispute i
  pointers : ∀ i, t.openDispute i = if i = c then some d else s.openDispute i
  votes : ∀ i a, t.vote i a = s.vote i a

theorem initiateCredentialDispute_spec {initiator : Address} {reason : Bytes} :
    wp (initiateCredentialDispute id initiator reason)
      (fun d t => Opens e id d initiator reason s t) e s := by
  simp only [initiateCredentialDispute, Tx.wp_bind, wp_requireAuth, wp_load, wp_require, wp_u64,
    wp_save, wp_timestamp, Tx.wp_pure]
  intro _ hknown _ _ hfree _
  have hd : (s.get .disputeCount).getD 0 + 1 = s.disputeCount + 1 := rfl
  refine ⟨hknown, by simpa [State.openDispute] using hfree, hd, by simp [State.disputeCount],
    fun i => ?_, fun i => ?_, fun i a => by simp [State.vote]⟩
  · split
    · next hi =>
        subst hi
        simp [State.dispute]
    · next hi => simp [State.dispute, hi]
  · split
    · next hi =>
        subst hi
        simp [State.openDispute]
    · next hi => simp [State.openDispute, hi]

theorem exec_opens (i : Nat) (a : Address) (r : Bytes) :
    wp (exec (.initiateCredentialDispute i a r)) (fun _ t => ∃ d, Opens e i d a r s t) e s := by
  simp only [exec, Tx.wp_bind, Tx.wp_pure]
  exact Tx.wp_mono initiateCredentialDispute_spec fun d t ht => ⟨d, ht⟩

/-- A re-check that has been put off changes when the next one is due. -/
theorem rescheduleConsistencyCheck_spec :
    wp (rescheduleConsistencyCheck id) (fun _ t => ∀ p c,
      ∃ due : AttestationRecord → Nat, t.attestation p c =
        (s.attestation p c).map fun r => ⟨r.credentialId, r.oracle, due r⟩) e s := by
  simp only [rescheduleConsistencyCheck, Tx.wp_bind, wp_load, Tx.wp_fromSome, wp_timestamp, wp_save]
  intro h _ r hr p c
  by_cases hpc : p = h.1 ∧ c = h.2
  · obtain ⟨rfl, rfl⟩ := hpc
    refine ⟨fun _ => saturatingAdd64 e.timestamp consistencyCheckInterval, ?_⟩
    simp [State.attestation, hr]
  · refine ⟨fun r => r.nextCheckDue, ?_⟩
    rw [State.attestation, Store.get_put_of_ne (by simpa using hpc)]
    simp [State.attestation]

end Specs

end Heirloom.Verifier
