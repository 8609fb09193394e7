import Mathlib.Data.Set.Function
import Heirloom.Verifier.Disputes

/-!
# The registry of credentials

Every attested pair of a proof and a claim has an id, under which the contract
keeps the hashes of the pair, and a record, which the contract keeps under these
hashes. The record names the id and the oracle that attested last.

* `Registry`: ids are numbered from 1 on, and the two maps are inverse to each
  other. Every call keeps it (`exec_registry`).
* `attestation_of_run`: the records are those of the pairs attested in the run,
  with the oracle of the last attestation.
* `attested_verifies_iff`: ids correspond to the attested pairs one to one; and
  `verify_claim` gives the verdict of the registry on an attested pair exactly if
  the pair is not larger than it accepts, which `attest` does not check.
* `oversized_never_verifies`: a pair that is attested and cannot be verified.
-/

namespace Heirloom.Verifier

open Transaction TypedStore Runs

/-! ## Ids and records -/

/-- The two maps of the registry. -/
structure Registry (s : State) : Prop where
  numbered : ∀ id, (s.hashes id).isSome = true ↔ 1 ≤ id ∧ id ≤ s.count
  recorded : ∀ id p c, s.hashes id = some (p, c) →
    ∃ r, s.attestation p c = some r ∧ r.credentialId = id
  named : ∀ p c r, s.attestation p c = some r → s.hashes r.credentialId = some (p, c)

/-- The pair that a call attests, and the oracle. -/
def Call.attests : Call → Option (Address × Bytes × Bytes)
  | .attest a p c => some (a, p, c)
  | .createDerivedCredential a _ p c => some (a, p, c)
  | _ => none

/-- The ids, the hashes and the oracles of `s` are those of `t`. -/
structure Kept (s t : State) : Prop where
  count : t.count = s.count
  hashes : ∀ id, t.hashes id = s.hashes id
  records : ∀ p c, (t.attestation p c).map (fun r => (r.credentialId, r.oracle)) =
    (s.attestation p c).map fun r => (r.credentialId, r.oracle)

section Steps

variable {e : Env} {s t : State} {k : Call} {oracle : Address} {proof claim : Bytes}
  {p c : Bytes32} {id : Nat}

theorem Kept.record (h : Kept s t) {r : AttestationRecord} (hr : t.attestation p c = some r) :
    ∃ r', s.attestation p c = some r' ∧ r'.credentialId = r.credentialId ∧ r'.oracle = r.oracle := by
  have hmap := h.records p c
  rw [hr] at hmap
  obtain ⟨r', hr', heq⟩ := Option.map_eq_some_iff.mp hmap.symm
  obtain ⟨hid, horacle⟩ := Prod.mk.inj heq
  exact ⟨r', hr', hid, horacle⟩

theorem Kept.symm (h : Kept s t) : Kept t s :=
  ⟨h.count.symm, fun id => (h.hashes id).symm, fun p c => (h.records p c).symm⟩

/-- What an accepted attestation leaves behind. -/
theorem exec_attests {x : Address × Bytes × Bytes} (hk : k.attests = some x) :
    wp (exec k) (fun _ t => (∃ id, Attests e x.1 (e.sha256 x.2.1) (e.sha256 x.2.2) id s t) ∧
      x.2.1 ≠ [] ∧ x.2.2 ≠ []) e s := by
  cases k with
  | attest a p c =>
      obtain rfl := Option.some.inj hk
      simp only [exec, Tx.wp_bind, Tx.wp_pure]
      exact Tx.wp_mono attest_spec fun id t ht => ⟨⟨id, ht.1⟩, ht.2⟩
  | createDerivedCredential a i p c =>
      obtain rfl := Option.some.inj hk
      refine Tx.wp_mono (exec_derives a i p c) ?_
      rintro _ t ⟨⟨id, hderives⟩, hne⟩
      exact ⟨⟨id, hderives.toAttests⟩, hne⟩
  | _ => simp [Call.attests] at hk

/-- The other calls leave the registry alone. -/
theorem exec_kept (hk : k.attests = none) : wp (exec k) (fun _ t => Kept s t) e s := by
  have hframe : wp (exec k) (fun _ t => SameBut k.areas s t) e s := exec_frame k
  have hsame : .ids ∉ k.areas → .attestations ∉ k.areas →
      wp (exec k) (fun _ t => Kept s t) e s := fun hids hrecords =>
    Tx.wp_mono hframe fun _ t ht =>
      ⟨ht.count hids, fun _ => ht.hashes hids, fun _ _ => by rw [ht.attestation hrecords]⟩
  cases k with
  | attest | createDerivedCredential => simp [Call.attests] at hk
  | rescheduleConsistencyCheck i =>
      refine Tx.wp_mono (Tx.wp_and hframe rescheduleConsistencyCheck_spec) ?_
      rintro _ t ⟨ht, hrecords⟩
      refine ⟨ht.count (by simp [Call.areas]), fun _ => ht.hashes (by simp [Call.areas]),
        fun p c => ?_⟩
      obtain ⟨due, hdue⟩ := hrecords p c
      rw [hdue, Option.map_map]
      rfl
  | _ => exact hsame (by simp [Call.areas]) (by simp [Call.areas])

/-! ## The registry is kept -/

theorem registry_genesis {w : World} (h : Genesis w) : Registry w.state := by
  have hhashes : ∀ id, w.state.hashes id = none := fun id =>
    h.get (k := .credentialHashes id) (by simp)
  have hrecords : ∀ p c, w.state.attestation p c = none := fun p c =>
    h.get (k := .attestation p c) (by simp)
  have hcount : w.state.count = 0 := by
    rw [State.count, h.get (by simp)]
    rfl
  refine ⟨fun id => ?_, fun id p c hid => ?_, fun p c r hr => ?_⟩
  · simp only [hhashes, hcount, Option.isSome_none, Bool.false_eq_true, false_iff]
    omega
  · simp [hhashes] at hid
  · simp [hrecords] at hr

theorem Kept.registry (h : Kept s t) (hs : Registry s) : Registry t := by
  refine ⟨fun id => ?_, fun id p c hid => ?_, fun p c r hr => ?_⟩
  · rw [h.hashes, h.count]
    exact hs.numbered id
  · obtain ⟨r, hr, hrid⟩ := hs.recorded id p c (h.hashes id ▸ hid)
    obtain ⟨r', hr', hid', -⟩ := h.symm.record hr
    exact ⟨r', hr', hid'.trans hrid⟩
  · obtain ⟨r', hr', hid', -⟩ := h.record hr
    rw [← hid', h.hashes]
    exact hs.named p c r' hr'

theorem Attests.registry (h : Attests e oracle p c id s t) (hs : Registry s) : Registry t := by
  -- the pair has its id under its hashes from now on, whether it is new or not
  have hown : t.hashes id = some (p, c) := by
    cases h.minted with
    | reused r hr hid _ hhashes => rw [hhashes, ← hid, hs.named p c r hr]
    | fresh _ _ _ hhashes => rw [hhashes, if_pos rfl]
  have hothers : ∀ i, i ≠ id → t.hashes i = s.hashes i := fun i hi => by
    cases h.minted with
    | reused _ _ _ _ hhashes => exact hhashes i
    | fresh _ _ _ hhashes => rw [hhashes, if_neg hi]
  have hpair : ∀ i, i ≠ id → s.hashes i ≠ some (p, c) := fun i hi hsi => by
    obtain ⟨r, hr, hrid⟩ := hs.recorded i p c hsi
    cases h.minted with
    | reused r' hr' hid _ _ =>
        obtain rfl := Option.some.inj (hr.symm.trans hr')
        exact hi (hrid.symm.trans hid)
    | fresh hnone _ _ _ => simp [hr] at hnone
  refine ⟨fun i => ?_, fun i p' c' hi => ?_, fun p' c' r hr => ?_⟩
  · cases h.minted with
    | reused _ _ _ hcount hhashes =>
        rw [hhashes, hcount]
        exact hs.numbered i
    | fresh _ hid hcount hhashes =>
        have hold := hs.numbered i
        rw [hhashes, hcount]
        split
        · next heq => simp only [Option.isSome_some, true_iff]; omega
        · next hne =>
            rw [hold]
            omega
  · by_cases heq : i = id
    · subst heq
      obtain ⟨rfl, rfl⟩ := Prod.mk.inj (Option.some.inj (hown.symm.trans hi))
      exact ⟨_, h.own, rfl⟩
    · rw [hothers i heq] at hi
      obtain ⟨r, hr, hrid⟩ := hs.recorded i p' c' hi
      refine ⟨r, (h.others p' c' ?_).trans hr, hrid⟩
      rintro ⟨rfl, rfl⟩
      exact hpair i heq hi
  · by_cases heq : p' = p ∧ c' = c
    · obtain ⟨rfl, rfl⟩ := heq
      obtain rfl := Option.some.inj (h.own.symm.trans hr)
      exact hown
    · rw [h.others p' c' heq] at hr
      have hold := hs.named p' c' r hr
      rw [hothers r.credentialId ?_, hold]
      rintro hid
      -- an id of the pair would name two pairs
      cases h.minted with
      | reused r' hr' hid' _ _ =>
          have hsame := hs.named p c r' hr'
          rw [hid', ← hid, hold] at hsame
          exact heq (Prod.mk.inj (Option.some.inj hsame))
      | fresh _ hid' _ _ =>
          have hrange := (hs.numbered r.credentialId).mp (by simp [hold])
          omega

theorem exec_registry (hs : Registry s) : wp (exec k) (fun _ t => Registry t) e s := by
  cases hk : k.attests with
  | none => exact Tx.wp_mono (exec_kept hk) fun _ t ht => ht.registry hs
  | some x =>
      refine Tx.wp_mono (exec_attests hk) ?_
      rintro _ t ⟨⟨id, hattests⟩, -⟩
      exact hattests.registry hs

/-- The hashes of an id are never changed. -/
theorem exec_hashes (hs : Registry s) :
    wp (exec k) (fun _ t => ∀ id h, s.hashes id = some h → t.hashes id = some h) e s := by
  cases hk : k.attests with
  | none => exact Tx.wp_mono (exec_kept hk) fun _ t ht id _ hh => (ht.hashes id).trans hh
  | some x =>
      refine Tx.wp_mono (exec_attests hk) ?_
      rintro _ t ⟨⟨id', hattests⟩, -⟩ id h hh
      cases hattests.minted with
      | reused _ _ _ _ hhashes => rw [hhashes, hh]
      | fresh _ hid _ hhashes =>
          have hrange := (hs.numbered id).mp (by simp [hh])
          rw [hhashes, if_neg (by omega), hh]

theorem Reachable.registry {w : World} (h : Reachable w) : Registry w.state :=
  reachable_invariant h (fun _ => registry_genesis) exec_registry

end Steps

/-! ## Who attested last -/

/-- The pairs that were attested, newest first. -/
def attestedPairs (ks : List Event) : List (Bytes × Bytes) :=
  ks.filterMap fun k => k.call.attests.map (·.2)

/-- The oracle of the newest attestation of a pair that meets `P`. -/
def lastAttester (P : Bytes × Bytes → Prop) [DecidablePred P] (ks : List Event) : Option Address :=
  ks.findSome? fun k => k.call.attests.bind fun x => if P x.2 then some x.1 else none

section History

variable {w w₀ : World} {ks : List Event} {k : Event} {pair : Bytes × Bytes} {p c : Bytes32}
  {P Q : Bytes × Bytes → Prop} [DecidablePred P] [DecidablePred Q]

theorem mem_attestedPairs_cons : pair ∈ attestedPairs (k :: ks) ↔
    (∃ oracle, k.call.attests = some (oracle, pair)) ∨ pair ∈ attestedPairs ks := by
  simp [attestedPairs]

theorem lastAttester_congr (h : ∀ pair ∈ attestedPairs ks, P pair ↔ Q pair) :
    lastAttester P ks = lastAttester Q ks := by
  induction ks with
  | nil => rfl
  | cons k ks ih =>
      cases hk : k.call.attests with
      | none =>
          have hrest : ∀ pair ∈ attestedPairs ks, P pair ↔ Q pair := by
            simpa [attestedPairs, hk] using h
          simpa [lastAttester, hk] using ih hrest
      | some x =>
          have hboth : (P x.2 ↔ Q x.2) ∧ ∀ pair ∈ attestedPairs ks, P pair ↔ Q pair := by
            simpa [attestedPairs, hk] using h
          have hrest := ih hboth.2
          simp only [lastAttester] at hrest
          simp only [lastAttester, List.findSome?_cons, hk, Option.bind_some, hboth.1, hrest]

theorem lastAttester_cons_none (hk : k.call.attests = none) :
    lastAttester P (k :: ks) = lastAttester P ks := by
  simp [lastAttester, hk]

theorem lastAttester_cons_some {x : Address × Bytes × Bytes} (hk : k.call.attests = some x) :
    lastAttester P (k :: ks) = if P x.2 then some x.1 else lastAttester P ks := by
  simp only [lastAttester, List.findSome?_cons, hk, Option.bind_some]
  split
  · next h => split at h <;> simp_all
  · next h => split at h <;> simp_all

/-- The hash function of a run is that of its start. -/
theorem sha256_of_run (hrun : Run Step w₀ ks w) : w.sha256 = w₀.sha256 :=
  hrun.invariant (I := fun v => v.sha256 = w₀.sha256) rfl
    fun _ _ _ hv hstep => hstep.sha256.trans hv

/-- The record under two hashes is that of the last attestation of a pair with these
hashes. -/
theorem attestation_of_run (h₀ : Genesis w₀) (hrun : Run Step w₀ ks w) (p c : Bytes32) :
    (w.state.attestation p c).map (·.oracle) =
      lastAttester (fun x => w₀.sha256 x.1 = p ∧ w₀.sha256 x.2 = c) ks := by
  refine (hrun.invariantHistory (I := fun ks v => v.sha256 = w₀.sha256 ∧
    ∀ p c, (v.state.attestation p c).map (·.oracle) =
      lastAttester (fun x => w₀.sha256 x.1 = p ∧ w₀.sha256 x.2 = c) ks) ⟨rfl, fun p c => ?_⟩ ?_).2 p c
  · rw [show w₀.state.attestation p c = none from h₀.get (k := .attestation p c) (by simp)]
    rfl
  · rintro ks v k v' ⟨hsha, hv⟩ hstep
    refine ⟨hstep.sha256.trans hsha, fun p c => ?_⟩
    cases hstep with
    | @call e call t _ hhash hexec =>
        cases hk : call.attests with
        | none =>
            rw [lastAttester_cons_none hk, ← hv p c]
            have hkept := (exec_kept hk _ _ hexec).records p c
            simpa [Option.map_map, Function.comp_def] using congrArg (Option.map Prod.snd) hkept
        | some x =>
            obtain ⟨oracle, proof, claim⟩ := x
            obtain ⟨⟨id, hattests⟩, -⟩ := exec_attests hk _ _ hexec
            rw [hhash, hsha] at hattests
            rw [lastAttester_cons_some hk]
            split
            · next heq =>
                rw [show t.attestation p c = _ from heq.1 ▸ heq.2 ▸ hattests.own]
                rfl
            · next hne =>
                rw [hattests.others p c fun heq => hne ⟨heq.1.symm, heq.2.symm⟩]
                exact hv p c

/-- No part of an attested pair is empty. -/
theorem ne_nil_of_attested (hrun : Run Step w₀ ks w) (hpair : pair ∈ attestedPairs ks) :
    pair.1 ≠ [] ∧ pair.2 ≠ [] := by
  refine hrun.invariantHistory (I := fun ks _ => ∀ pair ∈ attestedPairs ks,
    pair.1 ≠ [] ∧ pair.2 ≠ []) (by simp [attestedPairs]) ?_ pair hpair
  rintro ks v k v' hv hstep pair hpair
  rcases mem_attestedPairs_cons.mp hpair with ⟨oracle, hk⟩ | hold
  · cases hstep with
    | call _ _ hexec => exact (exec_attests hk _ _ hexec).2
  · exact hv pair hold

theorem lastAttester_isSome :
    (lastAttester P ks).isSome = true ↔ ∃ pair ∈ attestedPairs ks, P pair := by
  induction ks with
  | nil => simp [lastAttester, attestedPairs]
  | cons k ks ih =>
      simp only [mem_attestedPairs_cons]
      cases hk : k.call.attests with
      | none => simp [lastAttester_cons_none hk, ih]
      | some x =>
          rw [lastAttester_cons_some hk]
          split
          · next hx => exact iff_of_true rfl ⟨x.2, .inl ⟨x.1, rfl⟩, hx⟩
          · next hx =>
              rw [ih]
              refine exists_congr fun pair => ⟨fun h => ⟨.inr h.1, h.2⟩, fun h => ⟨?_, h.2⟩⟩
              refine h.1.resolve_left ?_
              rintro ⟨oracle, heq⟩
              exact hx ((Option.some.inj heq) ▸ h.2)

end History

/-! ## Verification -/

/-- A proof and a claim of a size that the verification accepts. -/
def Fits (proof claim : Bytes) : Prop :=
  proof ≠ [] ∧ proof.length ≤ maxProofSize ∧ claim ≠ [] ∧ claim.length ≤ maxClaimSize

/-- A registered oracle stands behind the pair with these hashes. -/
def State.vouched (s : State) (p c : Bytes32) : Bool :=
  (s.attestation p c).any fun r => s.registered r.oracle

/-- The credential with these hashes is invalidated. -/
def State.revoked (s : State) (p c : Bytes32) : Bool :=
  (s.attestation p c).any fun r => s.invalidated r.credentialId

section Verification

variable {e : Env} {s t : State} {proof claim : Bytes} {b : Bool}

@[simp] theorem isOracle_ok {a : Address} :
    isOracle a e s = .ok (b, t) ↔ s.registered a = b ∧ s = t := by
  simp only [isOracle, Tx.ok_bind, ok_load, Tx.ok_pure]
  constructor
  · rintro ⟨_, _, ⟨rfl, rfl⟩, rfl, rfl⟩
    exact ⟨rfl, rfl⟩
  · rintro ⟨rfl, rfl⟩
    exact ⟨_, s, ⟨rfl, rfl⟩, rfl, rfl⟩

theorem assertSizes_ok {u : Unit} : assertSizes proof claim e s = .ok (u, t) ↔ Fits proof claim ∧ s = t := by
  simp [assertSizes, Fits, and_assoc]

/-- The verdict on a pair that fits. -/
theorem verifyInternal_ok : verifyInternal proof claim e s = .ok (b, t) ↔
    Fits proof claim ∧ (s.vouched (e.sha256 proof) (e.sha256 claim) &&
      !s.revoked (e.sha256 proof) (e.sha256 claim)) = b ∧ s = t := by
  have hrest : ∀ o : Option AttestationRecord, s.attestation (e.sha256 proof) (e.sha256 claim) = o →
      ((ifSomeElse o (fun r => do
          let registered ← isOracle r.oracle
          let invalidated ← isCredentialInvalidated r.credentialId
          return registered && !invalidated) (pure false) : Contract Bool) e s = .ok (b, t) ↔
        (s.vouched (e.sha256 proof) (e.sha256 claim) &&
          !s.revoked (e.sha256 proof) (e.sha256 claim)) = b ∧ s = t) := by
    intro o ho
    cases o with
    | none => simp [State.vouched, ho]
    | some r => simp [State.vouched, State.revoked, ho, and_assoc]
  simp only [verifyInternal, Tx.ok_bind, assertSizes_ok, ok_sha256, ok_load]
  constructor
  · rintro ⟨_, _, ⟨hfits, rfl⟩, _, _, ⟨rfl, rfl⟩, _, _, ⟨rfl, rfl⟩, o, _, ⟨ho, rfl⟩, h⟩
    exact ⟨hfits, (hrest o ho).mp h⟩
  · rintro ⟨hfits, h⟩
    exact ⟨(), s, ⟨hfits, rfl⟩, _, s, ⟨rfl, rfl⟩, _, s, ⟨rfl, rfl⟩, _, s, ⟨rfl, rfl⟩,
      (hrest _ rfl).mpr h⟩

/-- A successful verification is entered into the history of the proof, which cannot fail. -/
theorem verifyClaim_ok : (∃ t, verifyClaim proof claim e s = .ok (b, t)) ↔
    Fits proof claim ∧ (s.vouched (e.sha256 proof) (e.sha256 claim) &&
      !s.revoked (e.sha256 proof) (e.sha256 claim)) = b := by
  simp only [verifyClaim, Tx.ok_bind, ok_sha256, verifyInternal_ok, Tx.ok_onlyIf, Tx.ok_pure]
  constructor
  · rintro ⟨t, _, _, ⟨rfl, rfl⟩, _, _, ⟨hfits, hb, rfl⟩, _, _, -, rfl, rfl⟩
    exact ⟨hfits, hb⟩
  · rintro ⟨hfits, hb⟩
    have hrecord : ∃ u, recordVerification (e.sha256 proof) true e s = .ok ((), u) := by
      simp [recordVerification]
    obtain ⟨u, hu⟩ := hrecord
    cases b with
    | true => exact ⟨u, _, s, ⟨rfl, rfl⟩, true, s, ⟨hfits, hb, rfl⟩, (), u, by simp [hu], rfl, rfl⟩
    | false => exact ⟨s, _, s, ⟨rfl, rfl⟩, false, s, ⟨hfits, hb, rfl⟩, (), s, by simp, rfl, rfl⟩

end Verification

/-! ## Ids and attested pairs -/

/-- Credential `id` is the pair: its hashes lead to a record with this id. -/
def State.names (s : State) (sha256 : Bytes → Bytes32) (id : Nat) (pair : Bytes × Bytes) : Prop :=
  s.hashes id = some (sha256 pair.1, sha256 pair.2) ∧
    ∃ r, s.attestation (sha256 pair.1) (sha256 pair.2) = some r ∧ r.credentialId = id

/-- No two of the proofs and claims that were attested have the same hash. -/
def CollisionFree (sha256 : Bytes → Bytes32) (ks : List Event) : Prop :=
  Set.InjOn sha256 {b | ∃ pair ∈ attestedPairs ks, b = pair.1 ∨ b = pair.2}

/-- `verify_claim` returns, and returns true exactly if the oracle that attested the pair
last is registered and the credential is not invalidated. -/
def VerifiesAsAttested (w : World) (ks : List Event) (pair : Bytes × Bytes) : Prop :=
  ∀ e : Env, e.sha256 = w.sha256 → ∃ b t, verifyClaim pair.1 pair.2 e w.state = .ok (b, t) ∧
    (b = true ↔ (∃ oracle, lastAttester (· = pair) ks = some oracle ∧
        w.state.registered oracle = true) ∧
      ∀ id, w.state.names w.sha256 id pair → w.state.invalidated id = false)

section Correspondence

variable {w w₀ : World} {ks : List Event} {pair pair' : Bytes × Bytes}

theorem CollisionFree.pair_eq {sha256 : Bytes → Bytes32} (h : CollisionFree sha256 ks)
    (hpair : pair ∈ attestedPairs ks) (hpair' : pair' ∈ attestedPairs ks)
    (hproof : sha256 pair.1 = sha256 pair'.1) (hclaim : sha256 pair.2 = sha256 pair'.2) :
    pair = pair' :=
  Prod.ext (h ⟨pair, hpair, .inl rfl⟩ ⟨pair', hpair', .inl rfl⟩ hproof)
    (h ⟨pair, hpair, .inr rfl⟩ ⟨pair', hpair', .inr rfl⟩ hclaim)

/-- The record of an attested pair names the oracle that attested the pair last. -/
theorem record_of_attested (h₀ : Genesis w₀) (hrun : Run Step w₀ ks w)
    (hfree : CollisionFree w.sha256 ks) (hpair : pair ∈ attestedPairs ks) :
    ∃ r, w.state.attestation (w.sha256 pair.1) (w.sha256 pair.2) = some r ∧
      lastAttester (· = pair) ks = some r.oracle := by
  have hlast := attestation_of_run h₀ hrun (w.sha256 pair.1) (w.sha256 pair.2)
  rw [← sha256_of_run hrun, lastAttester_congr (Q := (· = pair)) fun x hx =>
    ⟨fun heq => hfree.pair_eq hx hpair heq.1 heq.2, fun heq => heq ▸ ⟨rfl, rfl⟩⟩] at hlast
  have hsome : (lastAttester (· = pair) ks).isSome = true :=
    lastAttester_isSome.mpr ⟨pair, hpair, rfl⟩
  obtain ⟨oracle, horacle⟩ := Option.isSome_iff_exists.mp hsome
  rw [horacle] at hlast ⊢
  obtain ⟨r, hr, rfl⟩ := Option.map_eq_some_iff.mp hlast
  exact ⟨r, hr, rfl⟩

theorem attestedPair_of_record (h₀ : Genesis w₀) (hrun : Run Step w₀ ks w) {p c : Bytes32}
    {r : AttestationRecord} (hr : w.state.attestation p c = some r) :
    ∃ pair ∈ attestedPairs ks, w.sha256 pair.1 = p ∧ w.sha256 pair.2 = c := by
  have hlast := attestation_of_run h₀ hrun p c
  rw [hr] at hlast
  rw [sha256_of_run hrun]
  exact lastAttester_isSome.mp (by rw [← hlast]; rfl)

/-- Ids and attested pairs correspond one to one. The verification of an attested pair
returns, and agrees with the registry, exactly if neither the proof nor the claim is
larger than it accepts; `attest` accepts them at any size. -/
theorem attested_verifies_iff (h₀ : Genesis w₀) (hrun : Run Step w₀ ks w)
    (hfree : CollisionFree w.sha256 ks) :
    (∀ id, (w.state.hashes id).isSome = true ↔ 1 ≤ id ∧ id ≤ w.state.count) ∧
    (∀ id, 1 ≤ id → id ≤ w.state.count →
      ∃! pair, pair ∈ attestedPairs ks ∧ w.state.names w.sha256 id pair) ∧
    (∀ pair ∈ attestedPairs ks, ∃! id, w.state.names w.sha256 id pair) ∧
    ∀ pair ∈ attestedPairs ks, VerifiesAsAttested w ks pair ↔
      pair.1.length ≤ maxProofSize ∧ pair.2.length ≤ maxClaimSize := by
  have hreg : Registry w.state := Reachable.registry ⟨w₀, ks, h₀, hrun⟩
  refine ⟨hreg.numbered, fun id hfirst hlast => ?_, fun pair hpair => ?_, fun pair hpair => ?_⟩
  · obtain ⟨⟨p, c⟩, hhashes⟩ := Option.isSome_iff_exists.mp ((hreg.numbered id).mpr ⟨hfirst, hlast⟩)
    obtain ⟨r, hr, hid⟩ := hreg.recorded id p c hhashes
    obtain ⟨pair, hpair, rfl, rfl⟩ := attestedPair_of_record h₀ hrun hr
    refine ⟨pair, ⟨hpair, hhashes, r, hr, hid⟩, ?_⟩
    rintro pair' ⟨hpair', hhashes', -⟩
    obtain ⟨hproof, hclaim⟩ := Prod.mk.inj (Option.some.inj (hhashes'.symm.trans hhashes))
    exact hfree.pair_eq hpair' hpair hproof hclaim
  · obtain ⟨r, hr, -⟩ := record_of_attested h₀ hrun hfree hpair
    refine ⟨r.credentialId, ⟨hreg.named _ _ r hr, r, hr, rfl⟩, ?_⟩
    rintro id ⟨-, r', hr', rfl⟩
    rw [Option.some.inj (hr.symm.trans hr')]
  · obtain ⟨r, hr, hattester⟩ := record_of_attested h₀ hrun hfree hpair
    have hnames : ∀ id, w.state.names w.sha256 id pair ↔ id = r.credentialId := by
      intro id
      constructor
      · rintro ⟨-, r', hr', rfl⟩
        rw [Option.some.inj (hr.symm.trans hr')]
      · rintro rfl
        exact ⟨hreg.named _ _ r hr, r, hr, rfl⟩
    obtain ⟨hproof, hclaim⟩ := ne_nil_of_attested hrun hpair
    constructor
    · intro hverifies
      -- any environment with this hash function will do
      obtain ⟨b, t, hok, -⟩ := hverifies ⟨0, Nat.zero_le _, fun _ => false, w.sha256, fun _ => none⟩ rfl
      obtain ⟨⟨-, hlarge, -, hlarge'⟩, -⟩ := verifyClaim_ok.mp ⟨t, hok⟩
      exact ⟨hlarge, hlarge'⟩
    · rintro ⟨hlarge, hlarge'⟩ e he
      obtain ⟨t, ht⟩ := verifyClaim_ok.mpr ⟨⟨hproof, hlarge, hclaim, hlarge'⟩, rfl⟩
      refine ⟨_, t, ht, ?_⟩
      simp [he, State.vouched, State.revoked, hr, hattester, hnames]

end Correspondence

/-- Two byte strings with different hashes. -/
theorem collisionFree_of_single {sha256 : Bytes → Bytes32} {ks : List Event} (proof claim : Bytes)
    (hks : attestedPairs ks = [(proof, claim)]) (hne : sha256 proof ≠ sha256 claim) :
    CollisionFree sha256 ks := by
  rintro a ha b hb hab
  simp only [hks, List.mem_singleton, exists_eq_left] at ha hb
  rcases ha with rfl | rfl <;> rcases hb with rfl | rfl
  · rfl
  · exact absurd hab hne
  · exact absurd hab hne.symm
  · rfl

/-- An oracle attests the pair `[1]`, `[2]`, which then verifies. -/
theorem attested_verifies_small : ∃ w t, Reachable w ∧
    verifyClaim [1] [2] (signedBy [] 3) w.state = .ok (true, t) := by
  have hplay : (play (initialised ⟨8⟩) [([⟨8⟩], 1, .registerOracle ⟨20⟩),
      ([⟨20⟩], 2, .attest ⟨20⟩ [1] [2])]).any (fun w => decide (w.state.registered ⟨20⟩ = true ∧
        w.state.invalidated 1 = false ∧ w.state.hashes 1 = some (tinyHash [1], tinyHash [2]))) =
      true := by
    decide +kernel
  obtain ⟨w, hw, hchecks⟩ := (Option.any_eq_true _ _).mp hplay
  simp only [decide_eq_true_eq] at hchecks
  obtain ⟨hregistered, hvalid, hhashes⟩ := hchecks
  obtain ⟨hrun, hsha⟩ := run_of_play (w := initialised ⟨8⟩) rfl hw
  have hfree : CollisionFree w.sha256 (eventsOf [([⟨8⟩], 1, .registerOracle ⟨20⟩),
      ([⟨20⟩], 2, .attest ⟨20⟩ [1] [2])]) :=
    collisionFree_of_single [1] [2] rfl (by rw [hsha]; decide +kernel)
  obtain ⟨-, -, -, hverifies⟩ := attested_verifies_iff (genesis_initialised _) hrun hfree
  obtain ⟨b, t, hok, hb⟩ := (hverifies ([1], [2]) (by decide)).mpr (by decide)
    (signedBy [] 3) hsha.symm
  obtain rfl : b = true := by
    refine hb.mpr ⟨⟨⟨20⟩, rfl, hregistered⟩, fun id hid => ?_⟩
    have hreg := (reachable_of_play hw).registry
    have hone : w.state.hashes 1 = some (w.sha256 [1], w.sha256 [2]) := by rw [hsha, hhashes]
    obtain ⟨r, hr, hrid⟩ := hreg.recorded 1 _ _ hone
    obtain ⟨-, r', hr', rfl⟩ := hid
    rw [← Option.some.inj (hr.symm.trans hr'), hrid]
    exact hvalid
  exact ⟨w, t, reachable_of_play hw, hok⟩

/-- A claim of 1025 bytes is attested, and its verification fails. -/
theorem oversized_never_verifies : ∃ w₀ ks w pair, Genesis w₀ ∧ Run Step w₀ ks w ∧
    CollisionFree w.sha256 ks ∧ pair ∈ attestedPairs ks ∧ ¬ VerifiesAsAttested w ks pair := by
  have hplay : (play (initialised ⟨8⟩) [([⟨8⟩], 1, .registerOracle ⟨20⟩),
      ([⟨20⟩], 2, .attest ⟨20⟩ [1] (List.replicate 1025 1))]).isSome = true := by
    decide +kernel
  obtain ⟨w, hw⟩ := Option.isSome_iff_exists.mp hplay
  obtain ⟨hrun, hsha⟩ := run_of_play (w := initialised ⟨8⟩) rfl hw
  refine ⟨initialised ⟨8⟩, _, w, ([1], List.replicate 1025 1), genesis_initialised _, hrun, ?_, ?_,
    fun hverifies => ?_⟩
  · refine collisionFree_of_single [1] (List.replicate 1025 1) rfl ?_
    rw [hsha]
    decide +kernel
  · exact List.mem_singleton.mpr rfl
  · obtain ⟨b, t, hok, -⟩ := hverifies (signedBy [] 3) hsha.symm
    obtain ⟨⟨-, -, -, hlarge⟩, -⟩ := verifyClaim_ok.mp ⟨t, hok⟩
    rw [List.length_replicate] at hlarge
    exact absurd hlarge (by decide)

end Heirloom.Verifier
