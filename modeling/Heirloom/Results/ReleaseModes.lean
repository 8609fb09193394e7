import Heirloom.System

/-!
# The two modes of a release

Anybody may release an expired vault, by `trigger_release` or by `trigger_release_manual`.
The entry point decides the mode, and the mode decides two things: whether a condition that
the owner initiates the release is met, and which heirs take part, where heirs have triggers
of their own. Neither entry point asks for the owner.

* `stranger_release_alike`: a stranger has no choice where the owner's initiative is not
  among the conditions and every heir who would take part treats the two modes alike. The
  first of these is needed, and so is the second, but for heirs who get nothing.
* `stranger_chooses_heir`: with a trigger for each mode, the stranger decides which of two
  heirs gets everything; and a vault that only its owner may release is released by others.
-/

namespace Heirloom

open Transaction Runs

/-! ## What a stranger may choose -/

/-- The release conditions of vault `id`. -/
def State.conditions (s : State) (id : Nat) (v : Vault) : List ReleaseCondition :=
  (s.get (.releaseConditions id)).getD [v.releaseCondition]

/-- What a release has for its heirs. -/
def Vault.netAmount (v : Vault) : Int :=
  v.releaseAmount - (v.releaseAmount * v.burnPercentage).tdiv 10000

/-- An heir with these triggers takes part in both modes or in none. Without triggers an heir takes
part in every release. -/
def TriggersAlike (triggers : List ReleaseTrigger) : Prop :=
  triggers = [] ∨ (.expiry ∈ triggers ↔ .manual ∈ triggers)

/-- A release does not pay the heirs at once, or each of them treats the modes alike or
would not take part without triggers either. -/
def State.HeirsAlike (s : State) (e : Env) (id : Nat) (v : Vault) : Prop :=
  s.Unpaid e id ∨ ∀ entry ∈ (v.rotated e s id).beneficiaries,
    qualifies id [] v.netAmount .expiry entry e s = .ok (false, s) ∨
      TriggersAlike (heirTriggers ((s.get (.beneficiaryReleaseTriggers id)).getD []) entry.address)

/-- The transfers that a call from `s` has made; a call that fails makes none. -/
def transfersOf (s : State) : Except Failure (Unit × State) → Log
  | .ok (_, t) => t.ledger.log.drop s.ledger.log.length
  | .error _ => []

/-- A release in the given mode counts the owner's initiative as met, and the vault lists it among
its conditions. -/
def State.CountsOwner (s : State) (e : Env) (id : Nat) (v : Vault) (mode : ReleaseTrigger) : Prop :=
  .ownerInitiated ∈ s.conditions id v ∧ conditionMet id mode .ownerInitiated e s = .ok (true, s)

/-- Both ways to release vault `id` make the same transfers, and neither of them counts the
owner's initiative without the owner. -/
structure State.NoChoice (s : State) (e : Env) (id : Nat) (v : Vault) : Prop where
  transfers : transfersOf s (triggerRelease id e s) = transfersOf s (triggerReleaseManual id e s)
  owner : ∀ mode, s.CountsOwner e id v mode → e.authorized v.owner = true

/-! ## Rounds of the two loops -/

section Rounds

variable {e : Env} {s t : State} {id : Nat} {v : Vault} {mode : ReleaseTrigger} {amount : Int}
  {entry : BeneficiaryEntry} {mappings : List (Address × List ReleaseTrigger)}

theorem readOnly_qualifies : Tx.ReadOnly (qualifies id mappings amount mode entry) :=
  fun _ _ => by simp [qualifies]

/-- The triggers only keep heirs away. -/
theorem qualifies_eq (mode : ReleaseTrigger) : qualifies id mappings amount mode entry e s =
    if heirTriggers mappings entry.address ≠ [] ∧ mode ∉ heirTriggers mappings entry.address then
      .ok (false, s)
    else
      qualifies id [] amount .expiry entry e s := by
  have hnone : heirTriggers [] entry.address = [] := rfl
  by_cases h : heirTriggers mappings entry.address ≠ [] ∧
      mode ∉ heirTriggers mappings entry.address
  · rw [if_pos h]
    unfold qualifies
    rw [Tx.bind_of_ok (ok_storageGet.mpr ⟨rfl, rfl⟩), Tx.bind_of_ok (ok_storageGet.mpr ⟨rfl, rfl⟩)]
    exact Tx.ok_ite.mpr (.inl ⟨h, rfl⟩)
  · rw [if_neg h]
    unfold qualifies
    simp only [if_neg h, hnone, ne_eq, not_true_eq_false, false_and, if_false]

/-- Whether an heir is kept away for other reasons is read from two keys. -/
theorem qualifies_mono (h : qualifies id [] amount .expiry entry e s = .ok (false, s))
    (hstatus : t.get (.beneficiaryStatusEntry id entry.address) =
      s.get (.beneficiaryStatusEntry id entry.address))
    (htier : t.get (.beneficiaryTierThreshold id entry.address) =
      s.get (.beneficiaryTierThreshold id entry.address)) :
    qualifies id [] amount .expiry entry e t = .ok (false, t) := by
  simpa [qualifies, hstatus, htier] using h

/-- An heir that treats the modes alike takes part in both or in none. -/
theorem qualifies_alike (h : qualifies id [] amount .expiry entry e s = .ok (false, s) ∨
      TriggersAlike (heirTriggers mappings entry.address)) :
    qualifies id mappings amount .expiry entry e s =
      qualifies id mappings amount .manual entry e s := by
  rw [qualifies_eq .expiry, qualifies_eq .manual]
  rcases h with hfalse | hnone | hboth
  · rw [hfalse, ite_self, ite_self]
  · rw [hnone]
    simp
  · simp only [hboth]

/-- The conditions other than the owner's initiative are the same in both modes. -/
theorem anyConditionMet_alike {l : List ReleaseCondition} (h : .ownerInitiated ∉ l) :
    anyConditionMet id .expiry l e s = anyConditionMet id .manual l e s := by
  refine Tx.ReadOnly.foldEach_congr (fun met c => ?_) fun c hc met => ?_
  · intro e s
    simp only [Tx.wp_bind, Tx.wp_pure]
    exact readOnly_conditionMet e s
  · cases c with
    | ttlExpiry => rfl
    | ownerInitiated => exact absurd hc h
    | oracle => rfl

theorem qualifyingHeirs_alike {entries : List BeneficiaryEntry}
    (h : ∀ entry ∈ entries, qualifies id [] amount .expiry entry e s = .ok (false, s) ∨
      TriggersAlike (heirTriggers mappings entry.address)) :
    qualifyingHeirs id mappings amount .expiry entries e s =
      qualifyingHeirs id mappings amount .manual entries e s := by
  refine Tx.ReadOnly.foldEach_congr (fun done entry => ?_) fun entry hentry done => ?_
  · intro e s
    simp only [Tx.wp_bind, Tx.wp_pure]
    exact readOnly_qualifies e s
  · exact Tx.bind_congr_left (qualifies_alike (h entry hentry))

end Rounds

/-! ## Releases in the two modes -/

section Modes

variable {e : Env} {s t : State} {id : Nat} {v : Vault}

theorem getReleaseConditions_ok {l : List ReleaseCondition} (hv : s.vault id = some v)
    (h : getReleaseConditions id e s = .ok (l, t)) : l = s.conditions id v ∧ t = s := by
  simp only [getReleaseConditions, Tx.ok_bind, ok_storageGet, Tx.ok_ifSomeElse, Tx.ok_pure,
    ok_loadVault] at h
  obtain ⟨o, _, ⟨ho, rfl⟩, ⟨l', rfl, rfl, rfl⟩ | ⟨rfl, v', _, ⟨hv', rfl⟩, rfl, rfl⟩⟩ := h
  · exact ⟨by rw [State.conditions, ho]; rfl, rfl⟩
  · obtain rfl : v' = v := Option.some.inj (hv'.symm.trans hv)
    exact ⟨by rw [State.conditions, ho]; rfl, rfl⟩

/-- The first checks differ only by the owner's initiative. -/
theorem assertReleaseRequested_alike (hv : s.vault id = some v)
    (h : .ownerInitiated ∉ s.conditions id v) :
    assertReleaseRequested id .expiry e s = assertReleaseRequested id .manual e s := by
  unfold assertReleaseRequested
  refine Tx.bind_congr_right fun _ s₁ h₁ => ?_
  obtain rfl : s₁ = s := (ok_assertNotPaused.mp h₁).1.symm
  refine Tx.bind_congr_right fun _ s₂ h₂ => ?_
  have hcleared : Cleared id s₁ s₂ := tryRestoreArchivedVault_spec _ _ h₂
  have hvs : s₂.vault id = some v := (hcleared.vault id).trans hv
  refine Tx.bind_congr_right fun _ s₃ h₃ => ?_
  obtain rfl : s₂ = s₃ := (ok_loadVault.mp h₃).2
  refine Tx.bind_congr_right fun _ s₃ h₃ => ?_
  obtain rfl : s₂ = s₃ := (ok_storageGet.mp h₃).2
  refine Tx.bind_congr_right fun _ s₃ h₃ => ?_
  obtain rfl : s₂ = s₃ := (ok_require.mp h₃).2
  refine Tx.bind_congr_right fun _ s₃ h₃ => ?_
  obtain rfl : s₂ = s₃ := (ok_require.mp h₃).2
  refine Tx.bind_congr_right fun l s₃ h₃ => ?_
  obtain ⟨rfl, rfl⟩ := getReleaseConditions_ok hvs h₃
  have hsame : s₃.conditions id v = s₁.conditions id v := by
    rw [State.conditions, hcleared.get _ (by simp), State.conditions]
  exact Tx.bind_congr_left (anyConditionMet_alike (hsame ▸ h))

/-- Among heirs that treat the modes alike, the amount is split alike. -/
theorem distributeReleaseAmount_alike {amount : Int} (h : ∀ entry ∈ v.beneficiaries,
      qualifies id [] amount .expiry entry e s = .ok (false, s) ∨
      TriggersAlike (heirTriggers ((s.get (.beneficiaryReleaseTriggers id)).getD [])
        entry.address)) :
    distributeReleaseAmount id v amount .expiry e s =
      distributeReleaseAmount id v amount .manual e s := by
  unfold distributeReleaseAmount
  refine Tx.bind_congr_right fun mappings s₁ h₁ => ?_
  obtain ⟨rfl, rfl⟩ := ok_storageGet.mp h₁
  exact Tx.bind_congr_left (qualifyingHeirs_alike h)

theorem releaseFunds_alike (h : ∀ entry ∈ v.beneficiaries,
      qualifies id [] v.netAmount .expiry entry e s = .ok (false, s) ∨
      TriggersAlike (heirTriggers ((s.get (.beneficiaryReleaseTriggers id)).getD [])
        entry.address)) :
    releaseFunds id v .expiry e s = releaseFunds id v .manual e s := by
  unfold releaseFunds
  refine Tx.bind_congr_right fun product s₁ h₁ => ?_
  obtain ⟨-, rfl, rfl⟩ := ok_i128.mp h₁
  refine Tx.bind_congr_right fun net s₂ h₂ => ?_
  obtain ⟨-, rfl, rfl⟩ := ok_i128.mp h₂
  refine Tx.bind_congr_left ?_
  unfold payRelease
  by_cases hnone : v.beneficiaries = []
  · rw [if_pos hnone, if_pos hnone]
  · rw [if_neg hnone, if_neg hnone]
    exact distributeReleaseAmount_alike h

/-- What remains after the checks: the mode only matters for the split. -/
theorem releaseToHeirs_alike (hv : s.vault id = some v)
    (h : (∃ w, s.vault id = some w ∧ s.vests id (w.rotated e s id)) ∨
      ∀ entry ∈ (v.rotated e s id).beneficiaries,
        qualifies id [] v.netAmount .expiry entry e s = .ok (false, s) ∨
        TriggersAlike (heirTriggers ((s.get (.beneficiaryReleaseTriggers id)).getD [])
          entry.address)) :
    releaseToHeirs id v .expiry e s = releaseToHeirs id v .manual e s := by
  unfold releaseToHeirs
  refine Tx.bind_congr_right fun now s₁ h₁ => ?_
  obtain ⟨rfl, rfl⟩ := ok_timestamp.mp h₁
  refine Tx.bind_congr_right fun heirs s₂ h₂ => ?_
  obtain ⟨rfl, rfl⟩ : heirs = (v.rotated e s id).beneficiaries ∧ s₂ = s :=
    (wp_applyRotation (Q := fun l t => l = (v.rotated e s id).beneficiaries ∧ t = s)).mpr
      ⟨rfl, rfl⟩ _ _ h₂
  refine Tx.bind_congr_right fun vesting s₃ h₃ => ?_
  have hread : wp (hasVesting id (v.rotated e s₂ id)) (fun _ t => t = s₂) e s₂ := by
    simp [hasVesting]
  obtain rfl : s₃ = s₂ := hread _ _ h₃
  refine Tx.bind_congr_right fun _ s₄ h₄ => ?_
  obtain rfl : s₃.put (.releaseAttempted id) true = s₄ := (ok_storageSet.mp h₄)
  cases vesting with
  | true => rfl
  | false =>
      rcases h with ⟨w, hw, hvests⟩ | hheirs
      · obtain rfl : w = v := Option.some.inj (hw.symm.trans hv)
        simpa using (hasVesting_ok h₃).mpr hvests
      · refine releaseFunds_alike fun entry hentry => ?_
        rcases hheirs entry hentry with haway | halike
        · exact .inl (qualifies_mono haway (State.get_put_of_ne (by simp))
            (State.get_put_of_ne (by simp)))
        · rw [State.get_put_of_ne (by simp)]
          exact .inr halike

theorem Cleared.heirsAlike (h : Cleared id s t) (hs : s.HeirsAlike e id v) :
    t.HeirsAlike e id v := by
  rcases hs with hunpaid | hheirs
  · exact .inl (h.unpaid_iff.mpr hunpaid)
  · refine .inr fun entry hentry => ?_
    rw [h.rotated] at hentry
    rw [h.get (.beneficiaryReleaseTriggers id) (by simp)]
    exact (hheirs entry hentry).imp_left fun haway =>
      qualifies_mono haway (h.get _ (by simp)) (h.get _ (by simp))

/-- Both modes do the same where nothing tells them apart. -/
theorem triggerReleaseInternal_alike (hv : s.vault id = some v)
    (howner : .ownerInitiated ∉ s.conditions id v) (hheirs : s.HeirsAlike e id v) :
    triggerRelease id e s = triggerReleaseManual id e s := by
  unfold triggerRelease triggerReleaseManual triggerReleaseInternal
  rw [Tx.bind_congr_left (assertReleaseRequested_alike hv howner)]
  refine Tx.bind_congr_right fun _ s₁ h₁ => ?_
  have hcleared₁ : Cleared id s s₁ := (assertReleaseRequested_spec _ _ h₁).1
  refine Tx.bind_congr_right fun v' s₂ h₂ => ?_
  obtain ⟨hcleared₂, hv', -⟩ := assertReleasable_spec _ _ h₂
  have hcleared : Cleared id s s₂ := hcleared₁.trans hcleared₂
  obtain rfl : v' = v := Option.some.inj (hv'.symm.trans ((hcleared₁.vault id).trans hv))
  have hvs : s₂.vault id = some v' := (hcleared₂.vault id).trans hv'
  refine Tx.bind_congr_right fun acceptance s₃ h₃ => ?_
  obtain ⟨rfl, rfl⟩ := ok_storageGet.mp h₃
  refine Tx.bind_congr_right fun now s₄ h₄ => ?_
  obtain ⟨rfl, rfl⟩ := ok_timestamp.mp h₄
  by_cases hlapsed : (s₂.get (.conditionalAcceptance id)).any
      (ConditionalAcceptanceEntry.lapsed · e.timestamp) = true
  · rw [if_pos hlapsed, if_pos hlapsed]
  · rw [if_neg hlapsed, if_neg hlapsed]
    refine releaseToHeirs_alike hvs ?_
    rcases hcleared.heirsAlike hheirs with (hlapse | hvests) | hrest
    · exact absurd hlapse hlapsed
    · exact .inl hvests
    · exact .inr hrest

/-! An heir whose triggers leave a mode out gets nothing in that mode. -/

section Excluded

variable {mode : ReleaseTrigger} {a : Address}

/-- The transfers that lead from `s` to `t` are not to `a`: they pay others, if anybody. -/
def PassesBy (a : Address) (s t : State) : Prop :=
  ∃ log : Log, t.ledger = s.ledger.transferAll log ∧ ∀ x ∈ log, x.dest ≠ a

theorem transfersOf_of_passesBy {r : Except Failure (Unit × State)}
    (h : ∀ u t, r = .ok (u, t) → PassesBy a s t) : ∀ x ∈ transfersOf s r, x.dest ≠ a := by
  cases r with
  | error err => exact fun x hx => absurd hx List.not_mem_nil
  | ok p =>
      obtain ⟨log, hledger, hlog⟩ := h p.1 p.2 rfl
      intro x hx
      refine hlog x ?_
      simpa [transfersOf, hledger, TokenLedger.Ledger.log_transferAll] using hx

/-- Whoever takes part is an heir that is not kept away by its triggers. -/
theorem qualifyingHeirs_admits {mappings : List (Address × List ReleaseTrigger)} {amount : Int}
    {entries : List BeneficiaryEntry} (htriggers : heirTriggers mappings a ≠ [])
    (hmode : mode ∉ heirTriggers mappings a) :
    wp (qualifyingHeirs id mappings amount mode entries)
      (fun l t => t = s ∧ ∀ entry ∈ l, entry.address ≠ a) e s := by
  refine Tx.wp_foldEach (I := fun (l : List BeneficiaryEntry) t =>
    t = s ∧ ∀ entry ∈ l, entry.address ≠ a) ?_ ⟨rfl, by simp⟩
  rintro entry - l t ⟨rfl, hl⟩
  simp only [Tx.wp_bind, Tx.wp_pure]
  intro takesPart u hu
  refine ⟨readOnly_qualifies _ _ _ _ hu, ?_⟩
  by_cases ha : entry.address = a
  · subst ha
    rw [qualifies_eq, if_pos ⟨htriggers, hmode⟩] at hu
    cases hu
    exact hl
  · cases takesPart with
    | false => exact hl
    | true =>
        intro x hx
        rcases List.mem_append.mp hx with hx | hx
        · exact hl x hx
        · obtain rfl := List.mem_singleton.mp hx
          exact ha

theorem dest_paymentLog {token : Address} {amount denom left : Int}
    {entries : List BeneficiaryEntry} (h : ∀ entry ∈ entries, entry.address ≠ a) :
    ∀ x ∈ paymentLog token (splitPayments amount denom left entries), x.dest ≠ a := by
  intro x hx
  obtain ⟨p, hp, rfl⟩ := List.mem_map.mp hx
  obtain ⟨entry, hentry, haddress⟩ :=
    List.mem_map.mp (List.of_mem_zip (List.mem_filter.mp hp).1).1
  show p.1 ≠ a
  rw [← haddress]
  exact h entry hentry

theorem distributeReleaseAmount_passesBy {amount : Int} (howner : v.owner ≠ a)
    (htriggers : heirTriggers ((s.get (.beneficiaryReleaseTriggers id)).getD []) a ≠ [])
    (hmode : mode ∉ heirTriggers ((s.get (.beneficiaryReleaseTriggers id)).getD []) a) :
    wp (distributeReleaseAmount id v amount mode) (fun _ t => ∃ log : Log,
      t = s.transferAll log ∧ ∀ x ∈ log, x.dest ≠ a) e s := by
  simp only [distributeReleaseAmount, Tx.wp_bind, wp_storageGet]
  refine Tx.wp_mono (qualifyingHeirs_admits htriggers hmode) ?_
  rintro l t ⟨rfl, hl⟩
  split
  · simp only [wp_transfer]
    refine fun _ => ⟨_, State.pay_eq_transferAll, fun x hx => ?_⟩
    obtain rfl := List.mem_singleton.mp hx
    exact howner
  · exact wp_payShares ⟨_, rfl, dest_paymentLog hl⟩

theorem releaseToHeirs_passesBy (howner : v.owner ≠ a)
    (hvests : ¬ s.vests id (v.rotated e s id)) (hheirs : (v.rotated e s id).beneficiaries ≠ [])
    (htriggers : heirTriggers ((s.get (.beneficiaryReleaseTriggers id)).getD []) a ≠ [])
    (hmode : mode ∉ heirTriggers ((s.get (.beneficiaryReleaseTriggers id)).getD []) a) :
    wp (releaseToHeirs id v mode) (fun _ t => PassesBy a s t) e s := by
  simp only [releaseToHeirs, releaseFunds, markReleaseAttempted, Tx.wp_bind, wp_timestamp,
    wp_applyRotation, wp_hasVesting, wp_storageSet, Tx.wp_ite, wp_i128]
  refine fun vesting hvesting => ⟨fun h => ?_, fun _ _ _ => ?_⟩
  · exact absurd ((hasVesting_ok hvesting).mp h) hvests
  · show wp (payRelease id (v.rotated e s id) _ _ mode) _ e _
    rw [payRelease, if_neg hheirs]
    refine Tx.wp_mono (distributeReleaseAmount_passesBy howner ?_ ?_) ?_
    · rwa [State.get_put_of_ne (by simp)]
    · rwa [State.get_put_of_ne (by simp)]
    · rintro _ _ ⟨log, rfl, hlog⟩
      simp only [wp_saveVault, Tx.wp_onlyIf, archiveReleased, Tx.wp_bind, wp_recordStateTransition,
        wp_storageSet, wp_storageRemove]
      exact fun _ => ⟨fun _ => ⟨log, rfl, hlog⟩, fun _ => ⟨log, rfl, hlog⟩⟩

/-- A release that pays the heirs passes by whoever has triggers without its mode. -/
theorem triggerReleaseInternal_passesBy (hv : s.vault id = some v) (howner : v.owner ≠ a)
    (hpaid : ¬ s.Unpaid e id) (hheirs : (v.rotated e s id).beneficiaries ≠ [])
    (htriggers : heirTriggers ((s.get (.beneficiaryReleaseTriggers id)).getD []) a ≠ [])
    (hmode : mode ∉ heirTriggers ((s.get (.beneficiaryReleaseTriggers id)).getD []) a) :
    wp (triggerReleaseInternal id mode) (fun _ t => PassesBy a s t) e s := by
  refine triggerReleaseInternal_rule (fun v' _ hfound hlapsed => ?_) fun v' _ hfound _ => ?_
  all_goals
    obtain rfl : v' = v := Option.some.inj (hfound.before.symm.trans hv)
    obtain ⟨hcleared, -, hvs, -⟩ := hfound
  · exact absurd (.inl (hcleared.acceptanceLapsed.mp hlapsed)) hpaid
  · rw [← hcleared.rotated] at hheirs
    rw [← hcleared.get (.beneficiaryReleaseTriggers id) (by simp)] at htriggers hmode
    refine Tx.wp_mono (releaseToHeirs_passesBy howner (fun hvests => ?_) hheirs htriggers hmode)
      fun _ t ht => ?_
    · exact hpaid (hcleared.unpaid_iff.mp (.inr ⟨v', hvs, hvests⟩))
    · obtain ⟨log, hledger, hlog⟩ := ht
      exact ⟨log, hcleared.ledger ▸ hledger, hlog⟩

end Excluded

/-- A manual release counts the owner's initiative whoever calls it. -/
theorem countsOwner_manual :
    s.CountsOwner e id v .manual ↔ .ownerInitiated ∈ s.conditions id v := by
  simp [State.CountsOwner, conditionMet]

/-- For every caller that is not the owner: where the owner's initiative is not among the
conditions and nothing tells the heirs apart by the mode, it makes no difference which
release is called. The owner's initiative has to be absent, since the stranger's manual
release counts it; and if an heir is told apart without a difference, it is one that gets
nothing. -/
theorem stranger_release_alike (hv : s.vault id = some v) (hcaller : e.authorized v.owner = false) :
    (.ownerInitiated ∉ s.conditions id v → s.HeirsAlike e id v → s.NoChoice e id v) ∧
      (s.NoChoice e id v → .ownerInitiated ∉ s.conditions id v ∧
        (¬ s.Unpaid e id → ∀ entry ∈ (v.rotated e s id).beneficiaries, v.owner ≠ entry.address →
          ¬ TriggersAlike (heirTriggers ((s.get (.beneficiaryReleaseTriggers id)).getD [])
            entry.address) →
          ∀ x ∈ transfersOf s (triggerRelease id e s), x.dest ≠ entry.address)) := by
  refine ⟨fun howner hheirs => ⟨?_, fun mode hcounts => absurd hcounts.1 howner⟩,
    fun h => ⟨fun howner => ?_, fun hpaid entry hentry haddress htold => ?_⟩⟩
  · rw [triggerReleaseInternal_alike hv howner hheirs]
  · have hsigned := h.owner .manual (countsOwner_manual.mpr howner)
    rw [hcaller] at hsigned
    cases hsigned
  · have htriggers := fun hnone => htold (.inl hnone)
    have hheirs : (v.rotated e s id).beneficiaries ≠ [] := List.ne_nil_of_mem hentry
    -- one of the two calls passes by the heir, and the other makes the same transfers
    by_cases hmode : .expiry ∈ heirTriggers ((s.get (.beneficiaryReleaseTriggers id)).getD [])
        entry.address
    · rw [h.transfers]
      exact transfersOf_of_passesBy (triggerReleaseInternal_passesBy hv haddress hpaid hheirs
        htriggers fun hmanual => htold (.inr (iff_of_true hmode hmanual)))
    · exact transfersOf_of_passesBy
        (triggerReleaseInternal_passesBy hv haddress hpaid hheirs htriggers hmode)

end Modes

instance (triggers : List ReleaseTrigger) : Decidable (TriggersAlike triggers) :=
  inferInstanceAs (Decidable (_ ∨ (_ ↔ _)))

/-- Two heirs, one of whom takes part in both modes by its triggers. -/
theorem stranger_release_alike_two_heirs : ∃ (w : World) (v : Vault), Reachable w ∧
    w.state.vault 1 = some v ∧ w.state.NoChoice (signedBy [⟨7⟩] 90000) 1 v := by
  have hplay : (play (initialised ⟨8⟩ ⟨9⟩)
      [opensVault 100, paysIn 100,
        (signedBy [⟨1⟩] 0, .heir (.setBeneficiaries 1 ⟨1⟩ [⟨⟨3⟩, 5000, 0⟩, ⟨⟨4⟩, 5000, 0⟩])),
        (signedBy [⟨1⟩] 0, .heir (.setBeneficiaryReleaseTriggers 1 ⟨1⟩ ⟨3⟩
          [.expiry, .manual]))]).any
      (fun w => (w.state.vault 1).any fun v =>
        v.owner = ⟨1⟩ ∧ .ownerInitiated ∉ w.state.conditions 1 v ∧
        ∀ entry ∈ (v.rotated (signedBy [⟨7⟩] 90000) w.state 1).beneficiaries,
          TriggersAlike (heirTriggers
            ((w.state.get (.beneficiaryReleaseTriggers 1)).getD []) entry.address)) = true := by
    decide +kernel
  obtain ⟨w, hw, hchecks⟩ := (Option.any_eq_true _ _).mp hplay
  obtain ⟨v, hv, hchecks⟩ := (Option.any_eq_true _ _).mp hchecks
  simp only [decide_eq_true_eq] at hchecks
  obtain ⟨howner, hconditions, hheirs⟩ := hchecks
  refine ⟨w, v, reachable_of_play hw, hv, ?_⟩
  exact (stranger_release_alike hv (by rw [howner]; decide)).1 hconditions
    (.inr fun entry hentry => .inr (hheirs entry hentry))

/-- With a trigger for each mode, a stranger decides which heir is paid; and a stranger's
manual release counts as initiated by the owner. -/
theorem stranger_chooses_heir :
    (¬ ∀ (w : World) (id : Nat) (v : Vault) (e : Env), Reachable w → w.state.vault id = some v →
      e.authorized v.owner = false → (∃ t, triggerRelease id e w.state = .ok ((), t)) →
        transfersOf w.state (triggerRelease id e w.state) =
          transfersOf w.state (triggerReleaseManual id e w.state)) ∧
    ¬ ∀ (w : World) (id : Nat) (v : Vault) (e : Env) (t : State), Reachable w →
      w.state.vault id = some v → triggerReleaseManual id e w.state = .ok ((), t) →
        w.state.CountsOwner e id v .manual → e.authorized v.owner = true := by
  constructor
  · have hplay : (play (initialised ⟨8⟩ ⟨9⟩)
        [opensVault 100, paysIn 100,
          (signedBy [⟨1⟩] 0, .heir (.setBeneficiaries 1 ⟨1⟩ [⟨⟨3⟩, 5000, 0⟩, ⟨⟨4⟩, 5000, 0⟩])),
          (signedBy [⟨1⟩] 0, .heir (.setBeneficiaryReleaseTriggers 1 ⟨1⟩ ⟨3⟩ [.expiry])),
          (signedBy [⟨1⟩] 0, .heir (.setBeneficiaryReleaseTriggers 1 ⟨1⟩ ⟨4⟩ [.manual]))]).any
        (fun w => (w.state.vault 1).any (fun v => v.owner = ⟨1⟩) ∧
          succeeded (triggerRelease 1 (signedBy [⟨7⟩] 90000) w.state) ∧
          transfersOf w.state (triggerRelease 1 (signedBy [⟨7⟩] 90000) w.state) =
            [⟨⟨8⟩, currentContractAddress, ⟨3⟩, 100⟩] ∧
          transfersOf w.state (triggerReleaseManual 1 (signedBy [⟨7⟩] 90000) w.state) =
            [⟨⟨8⟩, currentContractAddress, ⟨4⟩, 100⟩]) = true := by decide +kernel
    obtain ⟨w, hw, hchecks⟩ := (Option.any_eq_true _ _).mp hplay
    simp only [decide_eq_true_eq] at hchecks
    obtain ⟨hv, hok, hexpiry, hmanual⟩ := hchecks
    obtain ⟨v, hv, howner⟩ : ∃ v, w.state.vault 1 = some v ∧ v.owner = ⟨1⟩ := by
      simpa [Option.any_eq_true] using hv
    obtain ⟨_, t, ht⟩ := ok_of_succeeded hok
    intro h
    have hsame := h w 1 v _ (reachable_of_play hw) hv (by rw [howner]; decide) ⟨t, ht⟩
    rw [hexpiry, hmanual] at hsame
    revert hsame
    decide
  · have hplay : (play (initialised ⟨8⟩ ⟨9⟩)
        [opensVault 100, paysIn 100,
          (signedBy [⟨1⟩] 0, .heir (.setReleaseCondition 1 ⟨1⟩ .ownerInitiated))]).any
        (fun w => (w.state.vault 1).any (fun v =>
            v.owner = ⟨1⟩ ∧ .ownerInitiated ∈ w.state.conditions 1 v) ∧
          succeeded (triggerReleaseManual 1 (signedBy [⟨7⟩] 90000) w.state)) = true := by
      decide +kernel
    obtain ⟨w, hw, hchecks⟩ := (Option.any_eq_true _ _).mp hplay
    simp only [decide_eq_true_eq] at hchecks
    obtain ⟨hv, hok⟩ := hchecks
    obtain ⟨v, hv, hbefore⟩ := (Option.any_eq_true _ _).mp hv
    simp only [decide_eq_true_eq] at hbefore
    obtain ⟨howner, hcondition⟩ := hbefore
    obtain ⟨_, t, ht⟩ := ok_of_succeeded hok
    intro h
    have hsigned := h w 1 v _ t (reachable_of_play hw) hv ht (countsOwner_manual.mpr hcondition)
    rw [howner] at hsigned
    revert hsigned
    decide

end Heirloom
