import Heirloom.System

/-!
# The protocol configuration

The limits are written by setters that take effect at once and by a proposal that is
applied a day later. Both check that the least check-in interval is not above the
greatest, each against the values it writes next to, so the two are in order in every
state. A proposal is applied a day after it was made at the earliest, and replaces
four of the six fields: whether metadata must be UTF-8 and how many vaults an owner may
have are read back by `getProtocolConfig` and written by nothing.

* `protocol_config_applied`: what holds of the configuration along every run.
* `proposed_utf8_dropped`: a proposal that asks for UTF-8 metadata and does not get it.
-/

namespace Heirloom

open Transaction Runs

/-- The configuration as `getProtocolConfig` reports it. -/
def State.protocolConfig (s : State) : ProtocolConfig :=
  ⟨s.get .minCheckInInterval, s.get .maxCheckInInterval, (s.get .maxTtlSeconds).getD 315360000,
    (s.get .ttlDecayRate).getD 0, (s.get .requireUtf8Metadata).getD false,
    (s.get .maxVaultsPerOwner).getD 0⟩

/-- The two bounds of the check-in interval are in order, if both of them are set. -/
def BoundsOrdered (min max : Option Nat) : Prop := ∀ m n, min = some m → max = some n → m ≤ n

/-- The last proposal of a history, and when it was made. -/
def lastProposal : List Event → Option (ProtocolConfig × Nat)
  | [] => none
  | .call e (.admin (.proposeProtocolConfig config)) :: _ => some (config, e.timestamp)
  | _ :: ks => lastProposal ks

/-- The state of the configuration after a history: the bounds in force are in order, and so are
those of the pending proposal, which is the last one made. -/
structure Configured (ks : List Event) (s : State) : Prop where
  ordered : BoundsOrdered (s.get .minCheckInInterval) (s.get .maxCheckInInterval)
  unset : s.get .requireUtf8Metadata = none ∧ s.get .maxVaultsPerOwner = none
  pending : ∀ config at', s.get .pendingProtocolConfig = some config →
    s.get .protocolConfigProposedAt = some at' →
      BoundsOrdered config.minCheckInInterval config.maxCheckInInterval ∧
        lastProposal ks = some (config, at')

section Config

variable {e : Env} {s t : State} {ks : List Event} {c : Call}

theorem getProtocolConfig_ok {config : ProtocolConfig} :
    getProtocolConfig e s = .ok (config, t) ↔ s.protocolConfig = config ∧ s = t := by
  simp only [getProtocolConfig, Tx.ok_bind, Tx.ok_pure, ok_storageGet]
  constructor
  · rintro ⟨_, _, ⟨rfl, rfl⟩, _, _, ⟨rfl, rfl⟩, _, _, ⟨rfl, rfl⟩, _, _, ⟨rfl, rfl⟩, _, _,
      ⟨rfl, rfl⟩, _, _, ⟨rfl, rfl⟩, h, rfl⟩
    exact ⟨h, rfl⟩
  · rintro ⟨h, rfl⟩
    exact ⟨_, _, ⟨rfl, rfl⟩, _, _, ⟨rfl, rfl⟩, _, _, ⟨rfl, rfl⟩, _, _, ⟨rfl, rfl⟩, _, _,
      ⟨rfl, rfl⟩, _, _, ⟨rfl, rfl⟩, h, rfl⟩

/-! ## What the calls do to the configuration -/

theorem proposeProtocolConfig_spec {config : ProtocolConfig} :
    wp (proposeProtocolConfig config) (fun _ t =>
      BoundsOrdered config.minCheckInInterval config.maxCheckInInterval ∧
        t = (s.put .pendingProtocolConfig config).put .protocolConfigProposedAt e.timestamp) e s := by
  simp only [proposeProtocolConfig, Tx.wp_bind, wp_requireAdmin, wp_require, Tx.wp_ifSome,
    wp_storageSet, wp_timestamp, and_true]
  intro _ _ _ _ _
  refine ⟨fun m hm => ⟨fun n hn hle _ _ => ?_, fun hn _ _ => ?_⟩, fun hm _ _ => ?_⟩
  · intro m' n' hm' hn'
    obtain rfl : m = m' := Option.some.inj (hm.symm.trans hm')
    obtain rfl : n = n' := Option.some.inj (hn.symm.trans hn')
    exact hle
  · intro m' n' _ hn'
    exact absurd (hn.symm.trans hn') (by simp)
  · intro m' n' hm' _
    exact absurd (hm.symm.trans hm') (by simp)

theorem wp_assignOptional (k : DataKey) {o : Option k.Value} {Q : Unit → State → Prop} :
    wp (ifSomeElse o (storageSet k) (storageRemove k)) Q e s ↔ Q () (s.assign k o) := by
  cases o <;> simp [State.assign]

theorem get_assign_self {k : DataKey} {o : Option k.Value} : (s.assign k o).get k = o := by
  cases o <;> simp [State.assign]

/-- Applying a proposal waits for the timelock, and replaces four fields. -/
theorem applyProtocolConfig_spec :
    wp applyProtocolConfig (fun _ t => ∃ config proposedAt,
      s.get .pendingProtocolConfig = some config ∧
      s.get .protocolConfigProposedAt = some proposedAt ∧
      proposedAt + protocolConfigTimelock ≤ e.timestamp ∧
      t.get .pendingProtocolConfig = none ∧
      t.get .minCheckInInterval = config.minCheckInInterval ∧
      t.get .maxCheckInInterval = config.maxCheckInInterval ∧
      t.get .maxTtlSeconds = some config.maxTtlSeconds ∧
      t.get .ttlDecayRate = some config.ttlDecayRate ∧
      t.get .requireUtf8Metadata = s.get .requireUtf8Metadata ∧
      t.get .maxVaultsPerOwner = s.get .maxVaultsPerOwner) e s := by
  simp only [applyProtocolConfig, Tx.wp_bind, wp_requireAdmin, wp_storageGet, Tx.wp_fromSome,
    wp_u64, wp_timestamp, wp_require, wp_storageSet, wp_storageRemove]
  intro _ _ _ config hconfig proposedAt hat _ hwait
  refine (wp_assignOptional .minCheckInInterval).mpr ?_
  refine (wp_assignOptional .maxCheckInInterval).mpr ?_
  refine ⟨config, proposedAt, hconfig, hat, hwait, ?_⟩
  simp [get_assign_self]

/-! ## The configuration along a run -/

/-- The keys that `Configured` is about. -/
@[reducible] def ConfigKey : DataKey → Bool
  | .minCheckInInterval | .maxCheckInInterval | .requireUtf8Metadata | .maxVaultsPerOwner
  | .pendingProtocolConfig | .protocolConfigProposedAt => true
  | _ => false

/-- `t` has the keys of the configuration as `s` has them, those that are pending included. -/
def SameConfig (s t : State) : Prop := ∀ k, ConfigKey k = true → t.get k = s.get k

@[simp] theorem sameConfig_refl : SameConfig s s := fun _ _ => rfl

@[simp] theorem sameConfig_put {k : DataKey} {v : k.Value} (hk : ConfigKey k = false) :
    SameConfig s (t.put k v) ↔ SameConfig s t := by
  have hget : ∀ k', ConfigKey k' = true → (t.put k v).get k' = t.get k' := fun k' hk' =>
    State.get_put_of_ne fun heq => by simp [heq, hk] at hk'
  exact forall₂_congr fun k' hk' => by rw [hget k' hk']

@[simp] theorem sameConfig_erase {k : DataKey} (hk : ConfigKey k = false) :
    SameConfig s (t.erase k) ↔ SameConfig s t := by
  have hget : ∀ k', ConfigKey k' = true → (t.erase k).get k' = t.get k' := fun k' hk' =>
    State.get_erase_of_ne fun heq => by simp [heq, hk] at hk'
  exact forall₂_congr fun k' hk' => by rw [hget k' hk']

theorem Configured.congr {ks' : List Event} (h : Configured ks s) (hkeys : SameConfig s t)
    (hlast : lastProposal ks' = lastProposal ks) : Configured ks' t := by
  refine ⟨?_, ?_, ?_⟩
  · rw [hkeys .minCheckInInterval rfl, hkeys .maxCheckInInterval rfl]
    exact h.ordered
  · rw [hkeys .requireUtf8Metadata rfl, hkeys .maxVaultsPerOwner rfl]
    exact h.unset
  · rw [hkeys .pendingProtocolConfig rfl, hkeys .protocolConfigProposedAt rfl, hlast]
    exact h.pending

/-- Every other administrative call leaves these keys alone. -/
theorem execAdmin_sameConfig {c : AdminCall} :
    wp (execAdmin c) (fun _ t =>
      (SameConfig s t ∧ ∀ config, c ≠ .proposeProtocolConfig config) ∨
      (∃ n, c = .setMinCheckInInterval n) ∨ (∃ n, c = .setMaxCheckInInterval n) ∨
      (∃ config, c = .proposeProtocolConfig config) ∨
      c = .applyProtocolConfig) e s := by
  cases c with
  | initializeContract => simp [execAdmin, initializeContract]
  | pause => simp [execAdmin, pause]
  | unpause => simp [execAdmin, unpause]
  | setMinCheckInInterval | setMaxCheckInInterval | proposeProtocolConfig | applyProtocolConfig =>
      exact fun _ _ _ => by simp
  | setMaxTtlSeconds => simp [execAdmin, setMaxTtlSeconds]
  | setTtlDecayRate => simp [execAdmin, setTtlDecayRate]
  | whitelistToken => simp [execAdmin, whitelistToken]
  | removeTokenWhitelist => simp [execAdmin, removeTokenWhitelist]
  | registerWrappedToken => simp [execAdmin, registerWrappedToken]
  | unregisterWrappedToken => simp [execAdmin, unregisterWrappedToken]
  | proposeNewAdmin => simp [execAdmin, proposeNewAdmin]
  | acceptAdmin => simp [execAdmin, acceptAdmin]
  | setMinCheckinCooldown => simp [execAdmin, setMinCheckinCooldown]
  | setOwnerVaultLimit => simp [execAdmin, setOwnerVaultLimit]
  | setBeneficiaryVaultLimit => simp [execAdmin, setBeneficiaryVaultLimit]

theorem setMinCheckInInterval_configured {n : Nat} (h : Configured ks s) :
    wp (setMinCheckInInterval n) (fun _ t =>
      Configured (.call e (.admin (.setMinCheckInInterval n)) :: ks) t) e s := by
  have hput : (∀ m, s.get .maxCheckInInterval = some m → n ≤ m) →
      Configured (.call e (.admin (.setMinCheckInInterval n)) :: ks)
        (s.put .minCheckInInterval n) := by
    intro hle
    refine ⟨?_, by simpa using h.unset, by simpa [lastProposal] using h.pending⟩
    intro m m' hm hm'
    obtain rfl : n = m := by simpa using hm
    exact hle m' (by simpa using hm')
  simp only [setMinCheckInInterval, Tx.wp_bind, wp_requireAdmin, wp_require, wp_storageGet,
    Tx.wp_ifSome, wp_storageSet]
  intro _ _ _ _
  refine ⟨fun m hm hle => hput fun m' hm' => ?_, fun hnone => hput fun m' hm' => ?_⟩
  · exact (Option.some.inj (hm.symm.trans hm')) ▸ hle
  · exact absurd (hnone.symm.trans hm') (by simp)

theorem setMaxCheckInInterval_configured {n : Nat} (h : Configured ks s) :
    wp (setMaxCheckInInterval n) (fun _ t =>
      Configured (.call e (.admin (.setMaxCheckInInterval n)) :: ks) t) e s := by
  have hput : (∀ m, s.get .minCheckInInterval = some m → m ≤ n) →
      Configured (.call e (.admin (.setMaxCheckInInterval n)) :: ks)
        (s.put .maxCheckInInterval n) := by
    intro hle
    refine ⟨?_, by simpa using h.unset, by simpa [lastProposal] using h.pending⟩
    intro m m' hm hm'
    obtain rfl : n = m' := by simpa using hm'
    exact hle m (by simpa using hm)
  simp only [setMaxCheckInInterval, Tx.wp_bind, wp_requireAdmin, wp_require, wp_storageGet,
    Tx.wp_ifSome, wp_storageSet]
  intro _ _ _ _
  refine ⟨fun m hm hle => hput fun m' hm' => ?_, fun hnone => hput fun m' hm' => ?_⟩
  · exact (Option.some.inj (hm.symm.trans hm')) ▸ hle
  · exact absurd (hnone.symm.trans hm') (by simp)

theorem ConfigKey.area {k : DataKey} (hk : ConfigKey k = true) : k.area = .config := by
  cases k <;> first | rfl | cases hk

theorem lastProposal_other (hc : ∀ config, c ≠ .admin (.proposeProtocolConfig config)) :
    lastProposal (.call e c :: ks) = lastProposal ks := by
  rw [lastProposal]
  rintro e' config heq
  exact hc config (Event.call.inj heq).2

/-- One call keeps the configuration in order. -/
theorem exec_configured (h : Configured ks s) (hnum : s.Numbered) :
    wp (exec c) (fun _ t => Configured (.call e c :: ks) t) e s := by
  intro _ t hexec
  by_cases hadmin : ∃ o, c = .admin o
  swap
  · have hframe := exec_frame c hnum _ _ hexec
    have hconfig : .config ∉ (c.footprint s).areas := fun h => hadmin (Call.config_writer h)
    refine h.congr (fun k hk => hframe.get_of_area ?_)
      (lastProposal_other fun config heq => hadmin ⟨_, heq⟩)
    simpa [ConfigKey.area hk] using hconfig
  obtain ⟨o, rfl⟩ := hadmin
  obtain ⟨hsame, hc⟩ | ⟨n, rfl⟩ | ⟨n, rfl⟩ | ⟨config, rfl⟩ | rfl :=
    execAdmin_sameConfig _ _ hexec
  · exact h.congr hsame (lastProposal_other fun config heq => hc config (Call.admin.inj heq))
  · exact setMinCheckInInterval_configured h _ _ hexec
  · exact setMaxCheckInInterval_configured h _ _ hexec
  · obtain ⟨hordered, rfl⟩ := proposeProtocolConfig_spec _ _ hexec
    refine ⟨by simpa using h.ordered, by simpa using h.unset, fun config' at' hc hat => ?_⟩
    obtain rfl : config = config' := by simpa using hc
    obtain rfl : e.timestamp = at' := by simpa using hat
    exact ⟨hordered, rfl⟩
  · obtain ⟨config, proposedAt, hconfig, hat, -, hnone, hmin, hmax, -, -, hutf8, hvaults⟩ :=
      applyProtocolConfig_spec _ _ hexec
    refine ⟨?_, by rw [hutf8, hvaults]; exact h.unset, fun config' at' hc _ => ?_⟩
    · rw [hmin, hmax]
      exact (h.pending config proposedAt hconfig hat).1
    · exact absurd (hnone.symm.trans hc) (by simp)

theorem Genesis.configured {w : World} (h : Genesis w) : Configured [] w.state := by
  obtain ⟨e, token, admin, l, _, _, hinit⟩ := h
  have hempty : Configured [] (⟨.empty, l⟩ : State) :=
    ⟨fun _ _ h => absurd h (by simp [State.get]), ⟨rfl, rfl⟩, fun _ _ h => absurd h (by simp [State.get])⟩
  obtain ⟨hsame, -⟩ | ⟨n, h⟩ | ⟨n, h⟩ | ⟨config, h⟩ | h :=
    execAdmin_sameConfig (c := .initializeContract token admin) _ _ hinit
  · exact hempty.congr hsame rfl
  all_goals cases h

theorem configured_of_run {w₀ w : World} (h₀ : Genesis w₀) (hrun : Run Step w₀ ks w) :
    Configured ks w.state :=
  history_of_run (I := fun ks w => Configured ks w.state) h₀ hrun h₀.configured
    (fun hnum hI _ hexec => exec_configured hI hnum _ _ hexec)
    fun _ hI => hI.congr (fun _ _ => rfl) rfl

end Config

/-- In every run the least check-in interval is at most the greatest, and a configuration
is applied a day after the latest proposal at the earliest. It is then reported as it was
proposed exactly if the proposal leaves the two fields that nothing writes at their
defaults. -/
theorem protocol_config_applied {w₀ w : World} {ks : List Event} (h₀ : Genesis w₀)
    (hrun : Run Step w₀ ks w) :
    (∀ min max, w.state.get .minCheckInInterval = some min →
      w.state.get .maxCheckInInterval = some max → min ≤ max) ∧
    ∀ (e : Env) (t : State), applyProtocolConfig e w.state = .ok ((), t) →
      ∃ config proposedAt, lastProposal ks = some (config, proposedAt) ∧
        proposedAt + protocolConfigTimelock ≤ e.timestamp ∧
        ∀ e', getProtocolConfig e' t = .ok (config, t) ↔
          config.requireUtf8Metadata = false ∧ config.maxVaultsPerOwner = 0 := by
  have hw := configured_of_run h₀ hrun
  refine ⟨hw.ordered, fun e t happly => ?_⟩
  obtain ⟨config, proposedAt, hconfig, hat, hwait, -, hmin, hmax, httl, hrate, hutf8, hvaults⟩ :=
    applyProtocolConfig_spec _ _ happly
  refine ⟨config, proposedAt, (hw.pending config proposedAt hconfig hat).2, hwait, fun e' => ?_⟩
  have hreported : t.protocolConfig = { config with
      requireUtf8Metadata := false, maxVaultsPerOwner := 0 } := by
    simp [State.protocolConfig, hmin, hmax, httl, hrate, hutf8, hvaults, hw.unset]
  rw [getProtocolConfig_ok, hreported]
  constructor
  · rintro ⟨h, -⟩
    exact ⟨(congrArg ProtocolConfig.requireUtf8Metadata h).symm,
      (congrArg ProtocolConfig.maxVaultsPerOwner h).symm⟩
  · rintro ⟨hfalse, hzero⟩
    refine ⟨?_, rfl⟩
    rw [← hfalse, ← hzero]

/-- A configuration that leaves them there is reported as it was proposed. -/
theorem protocol_config_applied_day : ∃ t, ∀ e',
    getProtocolConfig e' t = .ok (⟨some 10, some 20, 1000, 5, false, 0⟩, t) := by
  have hplay : (play (initialised ⟨8⟩ ⟨9⟩)
      [(signedBy [⟨9⟩] 0, .admin (.proposeProtocolConfig ⟨some 10, some 20, 1000, 5, false, 0⟩))]).any
      (fun w => succeeded (applyProtocolConfig (signedBy [⟨9⟩] oneDay) w.state)) = true := by
    decide +kernel
  obtain ⟨w, hw, happlied⟩ := (Option.any_eq_true _ _).mp hplay
  obtain ⟨_, t, happly⟩ := ok_of_succeeded happlied
  obtain ⟨config, proposedAt, hlast, -, hreported⟩ := (protocol_config_applied
    (genesis_initialised (by decide) (by decide)) (run_of_play hw)).2 _ t happly
  obtain ⟨rfl, -⟩ : (⟨some 10, some 20, 1000, 5, false, 0⟩ : ProtocolConfig) = config ∧
      (signedBy [⟨9⟩] 0).timestamp = proposedAt := by
    simpa [eventsOf, lastProposal] using hlast
  exact ⟨t, fun e' => (hreported e').mpr ⟨rfl, rfl⟩⟩

/-- A proposal that asks for UTF-8 metadata is applied without it. -/
theorem proposed_utf8_dropped : ¬ ∀ (w₀ w : World) (ks : List Event), Genesis w₀ →
    Run Step w₀ ks w → ∀ (e : Env) (t : State), applyProtocolConfig e w.state = .ok ((), t) →
      ∃ config proposedAt, lastProposal ks = some (config, proposedAt) ∧
        getProtocolConfig e t = .ok (config, t) := by
  have hplay : (play (initialised ⟨8⟩ ⟨9⟩)
      [(signedBy [⟨9⟩] 0, .admin (.proposeProtocolConfig ⟨some 10, some 20, 1000, 5, true, 0⟩))]).any
      (fun w => (applyProtocolConfig (signedBy [⟨9⟩] oneDay) w.state).toOption.any fun r =>
        decide (r.2.protocolConfig.requireUtf8Metadata = false)) = true := by decide +kernel
  obtain ⟨w, hw, hplay⟩ := (Option.any_eq_true _ _).mp hplay
  obtain ⟨⟨⟨⟩, t⟩, happly, hchecks⟩ := (Option.any_eq_true _ _).mp hplay
  have hutf8 : t.protocolConfig.requireUtf8Metadata = false := of_decide_eq_true hchecks
  intro h
  obtain ⟨config, proposedAt, hlast, hreported⟩ := h _ w _
    (genesis_initialised (by decide) (by decide)) (run_of_play hw) _ t (Tx.ok_of_toOption happly)
  obtain ⟨rfl, -⟩ : (⟨some 10, some 20, 1000, 5, true, 0⟩ : ProtocolConfig) = config ∧
      (signedBy [⟨9⟩] 0).timestamp = proposedAt := by
    simpa [eventsOf, lastProposal] using hlast
  rw [(getProtocolConfig_ok.mp hreported).1] at hutf8
  cases hutf8

end Heirloom
