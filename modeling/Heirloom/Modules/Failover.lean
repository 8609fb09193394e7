import Heirloom.Modules.Host
import Heirloom.Vaults

/-!
# Slice failover

A slice may have backup slices. Two tables say which slice is in use: the active slice
of a primary, and a flag in the configuration of every pair of a primary and a backup.

Results:
1. `failover_tables_agree`: the tables agree in every run in which no active pair is
   registered again and nothing is activated for a primary that is not itself in use;
   any other registration or activation that succeeds makes them disagree.
2. `failover_tables_disagree`: both ways to make them disagree.
-/

namespace Heirloom.Modules.Failover

open Transaction TypedStore Runs

/-! ## Storage -/

structure FailoverConfig where
  primarySliceId : Nat
  backupSliceId : Nat
  failureThreshold : Nat
  isActive : Bool
  createdAt : Nat
deriving DecidableEq

/-- Only told to the events, which the model leaves out. -/
inductive FailoverReason
  | thresholdExceeded | explicitFailure | timeout
deriving DecidableEq

inductive SliceFailoverKey
  | backupSlices (sliceId : Nat)
  | activeSlice (sliceId : Nat)
  | failoverConfig (sliceId backupId : Nat)
  | failureCount (sliceId : Nat)
  | lastFailureTime (sliceId : Nat)
deriving DecidableEq

/-- The type of the value under a key. -/
@[reducible] def SliceFailoverKey.Value : SliceFailoverKey → Type
  | .backupSlices _ => List Nat
  | .activeSlice _ => Nat
  | .failoverConfig _ _ => FailoverConfig
  | .failureCount _ => Nat
  | .lastFailureTime _ => Nat

abbrev State := Store SliceFailoverKey.Value

abbrev storageGet (k : SliceFailoverKey) : Routine SliceFailoverKey.Value (Option k.Value) :=
  load k

abbrev storageSet (k : SliceFailoverKey) (v : k.Value) : Routine SliceFailoverKey.Value Unit :=
  save k v

/-! ## Functions -/

def getBackupSlices (primarySliceId : Nat) : Routine SliceFailoverKey.Value (List Nat) := do
  let backups : Option (List Nat) ← storageGet (.backupSlices primarySliceId)
  pure (backups.getD [])

/-- The slice in use: the primary itself, or one of its backups. -/
def getActiveSlice (sliceId : Nat) : Routine SliceFailoverKey.Value Nat := do
  let active : Option Nat ← storageGet (.activeSlice sliceId)
  pure (active.getD sliceId)

def registerBackupSlice (primarySliceId backupSliceId failureThreshold : Nat) :
    Routine SliceFailoverKey.Value Nat := do
  require (primarySliceId ≠ backupSliceId) .invalidSlice
  let backups ← getBackupSlices primarySliceId
  storageSet (.backupSlices primarySliceId) (backups ++ [backupSliceId])
  let now ← ask (·.timestamp)
  storageSet (.failoverConfig primarySliceId backupSliceId)
    ⟨primarySliceId, backupSliceId, failureThreshold, false, now⟩
  pure backupSliceId

/-- Puts a backup in the place of its primary and returns whether that was done. -/
def activateFailover (primarySliceId backupSliceId : Nat) (_reason : FailoverReason) :
    Routine SliceFailoverKey.Value Bool := do
  let found : Option FailoverConfig ← storageGet (.failoverConfig primarySliceId backupSliceId)
  Tx.ifSomeElse found
    (fun config => do
      if config.isActive = true then pure false
      else do
        storageSet (.failoverConfig primarySliceId backupSliceId) { config with isActive := true }
        storageSet (.activeSlice primarySliceId) backupSliceId
        pure true)
    (pure false)

/-- Counts a failure and activates the first backup from its threshold on. -/
def recordSliceFailure (primarySliceId : Nat) (reason : FailoverReason) :
    Routine SliceFailoverKey.Value Bool := do
  let count : Option Nat ← storageGet (.failureCount primarySliceId)
  let failureCount := min (count.getD 0 + 1) u32Max
  storageSet (.failureCount primarySliceId) failureCount
  let now ← ask (·.timestamp)
  storageSet (.lastFailureTime primarySliceId) now
  let backups ← getBackupSlices primarySliceId
  Tx.ifSomeElse backups.head?
    (fun primaryBackup => do
      let found : Option FailoverConfig ←
        storageGet (.failoverConfig primarySliceId primaryBackup)
      Tx.ifSomeElse found
        (fun config =>
          if config.failureThreshold ≤ failureCount ∧ config.isActive = false then
            activateFailover primarySliceId primaryBackup reason
          else pure false)
        (pure false))
    (pure false)

/-- Puts the primary back in its place and returns whether that was done. -/
def revertFailover (primarySliceId backupSliceId : Nat) :
    Routine SliceFailoverKey.Value Bool := do
  let found : Option FailoverConfig ← storageGet (.failoverConfig primarySliceId backupSliceId)
  Tx.ifSomeElse found
    (fun config => do
      if config.isActive = false then pure false
      else do
        storageSet (.failoverConfig primarySliceId backupSliceId) { config with isActive := false }
        storageSet (.activeSlice primarySliceId) primarySliceId
        storageSet (.failureCount primarySliceId) 0
        pure true)
    (pure false)

/-! ## The entry points of the contract -/

/-- The calls of the owner of any vault: slices belong to no vault in particular. -/
inductive Call
  | registerBackupSlice (primarySliceId backupSliceId failureThreshold : Nat)
  | recordSliceFailure (primarySliceId : Nat) (reason : FailoverReason)
  | activateFailover (primarySliceId backupSliceId : Nat) (reason : FailoverReason)
  | revertFailover (primarySliceId backupSliceId : Nat)

def execCall : Call → Routine SliceFailoverKey.Value Unit
  | .registerBackupSlice p b threshold => do let _ ← registerBackupSlice p b threshold
  | .recordSliceFailure p reason => do let _ ← recordSliceFailure p reason
  | .activateFailover p b reason => do let _ ← activateFailover p b reason
  | .revertFailover p b => do let _ ← revertFailover p b

def exec (vaultId : Nat) (caller : Address) (call : Call) : Routine SliceFailoverKey.Value Unit := do
  requireVaultOwner vaultId caller
  execCall call

/-- A call with what it sees, the vault it is made for and its caller. -/
structure Event where
  env : Env
  vaultId : Nat
  caller : Address
  call : Call

/-- A call that succeeds; one that fails changes nothing. -/
def Step (s : State) (k : Event) (t : State) : Prop :=
  exec k.vaultId k.caller k.call k.env s = .ok ((), t)

/-! ## The two tables -/

/-- What `get_active_slice` returns. -/
def activeSlice (s : State) (p : Nat) : Nat := (s.get (.activeSlice p)).getD p

def configOf (s : State) (p b : Nat) : Option FailoverConfig := s.get (.failoverConfig p b)

/-- `FailoverConfig(p, b).is_active`. -/
def Active (s : State) (p b : Nat) : Prop := ∃ config, configOf s p b = some config ∧
  config.isActive = true

/-- The pair has been registered and is not active. -/
def Inactive (s : State) (p b : Nat) : Prop := ∃ config, configOf s p b = some config ∧
  config.isActive = false

/-- The slice in use is a backup exactly if the pair is flagged, at most one pair of a
primary is flagged, and the primary is in use exactly if none is. -/
structure TablesAgree (s : State) : Prop where
  backup : ∀ p b, activeSlice s p = b ∧ b ≠ p ↔ Active s p b
  unique : ∀ p b b', Active s p b → Active s p b' → b = b'
  primary : ∀ p, activeSlice s p = p ↔ ∀ b, ¬ Active s p b

/-- The call would flag the pair. -/
def Call.Flags (s : State) (p b : Nat) : Call → Prop
  | .activateFailover p' b' _ =>
      p' = p ∧ b' = b ∧ Inactive s p b
  | .recordSliceFailure p' _ => p' = p ∧ ((s.get (.backupSlices p)).getD []).head? = some b ∧
      ∃ config, configOf s p b = some config ∧ config.isActive = false ∧
        config.failureThreshold ≤ min ((s.get (.failureCount p)).getD 0 + 1) u32Max
  | .registerBackupSlice _ _ _ | .revertFailover _ _ => False

/-- A pair that is registered is not active, and a pair is flagged only while its primary
is in use. -/
def Safe (s : State) (k : Event) : Prop :=
  (∀ p b threshold, k.call = .registerBackupSlice p b threshold → ¬ Active s p b) ∧
  ∀ p b, k.call.Flags s p b → activeSlice s p = p

theorem tablesAgree_iff {s : State} :
    TablesAgree s ↔ ∀ p b, activeSlice s p = b ∧ b ≠ p ↔ Active s p b := by
  refine ⟨fun h => h.backup, fun h => ⟨h, fun p b b' hb hb' => ?_, fun p => ⟨fun hp b hb => ?_, ?_⟩⟩⟩
  · exact ((h p b).mpr hb).1.symm.trans ((h p b').mpr hb').1
  · obtain ⟨hactive, hne⟩ := (h p b).mpr hb
    exact hne (hactive.symm.trans hp)
  · intro hnone
    by_contra hne
    exact hnone _ ((h p _).mp ⟨rfl, hne⟩)

section Reads

variable {s : State} {k : SliceFailoverKey} {v : k.Value} {p b p' b' : Nat}
  {config : FailoverConfig}

@[simp] theorem activeSlice_put_self :
    activeSlice (s.put (.activeSlice p) b) = Function.update (activeSlice s) p b := by
  funext p'
  by_cases h : p' = p
  · subst h
    simp [activeSlice]
  · simp [activeSlice, h]

@[simp] theorem activeSlice_put (h : ∀ p, k ≠ .activeSlice p) :
    activeSlice (s.put k v) = activeSlice s :=
  funext fun p => by rw [activeSlice, activeSlice, Store.get_put_of_ne (h p).symm]

@[simp] theorem configOf_put_self :
    configOf (s.put (.failoverConfig p b) config) p' b' =
      if p' = p ∧ b' = b then some config else configOf s p' b' := by
  unfold configOf
  split
  · next h =>
    obtain ⟨rfl, rfl⟩ := h
    exact Store.get_put_self
  · next h => exact Store.get_put_of_ne (by simpa using h)

@[simp] theorem configOf_put (h : ∀ p b, k ≠ .failoverConfig p b) :
    configOf (s.put k v) p' b' = configOf s p' b' :=
  Store.get_put_of_ne (h p' b').symm

end Reads

/-! ## What the calls do -/

section Steps

variable {s t u : State} {e : Env} {p b active : Nat} {flag : Bool} {reason : FailoverReason}

/-- `t` has the tables of `s`. -/
structure Same (s t : State) : Prop where
  active_eq : activeSlice t = activeSlice s
  config_eq : ∀ p b, configOf t p b = configOf s p b

/-- `t` has the tables of `s` but for the slice in use for `p` and the pair `(p, b)`. -/
structure Switched (s : State) (p b active : Nat) (flag : Bool) (t : State) : Prop where
  active_eq : activeSlice t = Function.update (activeSlice s) p active
  flag_eq : ∀ p' b', Active t p' b' ↔ if p' = p ∧ b' = b then flag = true else Active s p' b'
  self_eq : (∀ q, configOf s q q = none) → ∀ q, configOf t q q = none

theorem Same.active_iff (h : Same s t) : Active t p b ↔ Active s p b := by
  unfold Active
  rw [h.config_eq]

theorem Switched.of_same (h : Same s u) (h' : Switched u p b active flag t) :
    Switched s p b active flag t :=
  ⟨by rw [h'.active_eq, h.active_eq], fun p' b' => by rw [h'.flag_eq, h.active_iff],
    fun hself => h'.self_eq fun q => (h.config_eq q q).trans (hself q)⟩

/-- Replacing the configuration of a pair, for a pair of two slices or one that had a
configuration. -/
theorem switched_put (config : FailoverConfig)
    (hactive : activeSlice t = Function.update (activeSlice s) p active)
    (hconfig : ∀ p' b', configOf t p' b' =
      if p' = p ∧ b' = b then some config else configOf s p' b')
    (hpair : p ≠ b ∨ configOf s p b ≠ none) : Switched s p b active config.isActive t := by
  refine ⟨hactive, fun p' b' => ?_, fun hself q => ?_⟩
  · unfold Active
    rw [hconfig]
    split <;> simp
  · rw [hconfig, if_neg, hself]
    rintro ⟨rfl, rfl⟩
    exact hpair.elim (fun h => h rfl) fun h => h (hself q)

theorem registerBackupSlice_wp {threshold : Nat} : wp (registerBackupSlice p b threshold)
    (fun _ t => Switched s p b (activeSlice s p) false t) e s := by
  simp only [registerBackupSlice, getBackupSlices, Tx.wp_bind, Tx.wp_pure, Tx.wp_ask, wp_load,
    wp_save, wp_require]
  intro hne
  exact switched_put ⟨p, b, threshold, false, e.timestamp⟩ (by simp) (by simp) (.inl hne)

theorem activateFailover_wp : wp (activateFailover p b reason)
    (fun _ t => Inactive s p b ∧ Switched s p b b true t ∨ ¬ Inactive s p b ∧ t = s) e s := by
  simp only [activateFailover, Tx.wp_bind, Tx.wp_pure, Tx.wp_ite, Tx.wp_ifSomeElse, wp_load,
    wp_save]
  constructor
  · intro config hconfig
    constructor
    · intro hactive
      refine .inr ⟨?_, trivial⟩
      rintro ⟨config', hconfig', hinactive⟩
      obtain rfl : config = config' := Option.some.inj (hconfig.symm.trans hconfig')
      exact Bool.false_ne_true (hinactive.symm.trans hactive)
    · intro hinactive
      refine .inl ⟨⟨config, hconfig, by simpa using hinactive⟩, ?_⟩
      have hused : configOf s p b ≠ none := by simp [configOf, hconfig]
      exact switched_put { config with isActive := true } (by simp) (by simp) (.inr hused)
  · intro hnone
    refine .inr ⟨?_, trivial⟩
    rintro ⟨config, hconfig, -⟩
    exact absurd (hconfig.symm.trans hnone) (Option.some_ne_none config)

theorem recordSliceFailure_wp : wp (recordSliceFailure p reason)
    (fun _ t => (∃ b, (Call.recordSliceFailure p reason).Flags s p b ∧ Switched s p b b true t) ∨
      (∀ b, ¬ (Call.recordSliceFailure p reason).Flags s p b) ∧ Same s t) e s := by
  simp only [recordSliceFailure, getBackupSlices, Tx.wp_bind, Tx.wp_pure, Tx.wp_ask, Tx.wp_ite,
    Tx.wp_ifSomeElse, wp_load, wp_save]
  generalize hu : (s.put (.failureCount p) _).put (.lastFailureTime p) _ = u
  have hsame : Same s u := by
    subst hu
    exact ⟨by simp, by simp⟩
  have hbackups : u.get (.backupSlices p) = s.get (.backupSlices p) := by
    subst hu
    simp
  have hconfig : ∀ b, u.get (.failoverConfig p b) = configOf s p b := fun b => hsame.config_eq p b
  simp only [hbackups, hconfig, Call.Flags, true_and]
  constructor
  · intro b hb
    -- no other backup of the primary is looked at
    have hnot : (∀ config, configOf s p b = some config → ¬ (config.isActive = false ∧
        config.failureThreshold ≤ min ((s.get (.failureCount p)).getD 0 + 1) u32Max)) →
        ∀ b', ¬ (((s.get (.backupSlices p)).getD []).head? = some b' ∧
          ∃ config, configOf s p b' = some config ∧ config.isActive = false ∧
            config.failureThreshold ≤ min ((s.get (.failureCount p)).getD 0 + 1) u32Max) := by
      rintro hnone b' ⟨hb', config, hconf, hflags⟩
      obtain rfl : b = b' := Option.some.inj (hb.symm.trans hb')
      exact hnone config hconf hflags
    constructor
    · intro config hconf
      constructor
      · rintro ⟨hthreshold, hinactive⟩
        refine Tx.wp_mono activateFailover_wp fun _ t ht => ?_
        obtain ⟨-, hswitched⟩ | ⟨hnone, -⟩ := ht
        · exact .inl ⟨b, ⟨hb, config, hconf, hinactive, hthreshold⟩, hswitched.of_same hsame⟩
        · exact absurd ⟨config, (hsame.config_eq p b).trans hconf, hinactive⟩ hnone
      · intro hnone
        refine .inr ⟨hnot fun config' hconf' hflags => hnone ?_, hsame⟩
        obtain rfl : config = config' := Option.some.inj (hconf.symm.trans hconf')
        exact hflags.symm
    · intro hnone
      refine .inr ⟨hnot fun config hconf => ?_, hsame⟩
      exact absurd (hconf.symm.trans hnone) (Option.some_ne_none config)
  · intro hnone
    refine .inr ⟨fun b hb => ?_, hsame⟩
    exact absurd (hb.1.symm.trans hnone) (Option.some_ne_none b)

theorem revertFailover_wp : wp (revertFailover p b)
    (fun _ t => Active s p b ∧ Switched s p b p false t ∨ t = s) e s := by
  simp only [revertFailover, Tx.wp_bind, Tx.wp_pure, Tx.wp_ite, Tx.wp_ifSomeElse, wp_load,
    wp_save]
  constructor
  · intro config hconfig
    constructor
    · exact fun _ => .inr trivial
    · intro hactive
      have hused : configOf s p b ≠ none := by simp [configOf, hconfig]
      refine .inl ⟨⟨config, hconfig, by simpa using hactive⟩, ?_⟩
      exact switched_put { config with isActive := false } (by simp) (by simp) (.inr hused)
  · exact fun _ => .inr trivial

/-- What a call does to the two tables. -/
inductive Effect (s : State) (t : State) : Call → Prop
  | registered {p b threshold : Nat} (h : Switched s p b (activeSlice s p) false t) :
      Effect s t (.registerBackupSlice p b threshold)
  | flagged {call : Call} {p b : Nat} (hflags : call.Flags s p b)
      (h : Switched s p b b true t) : Effect s t call
  | reverted {p b : Nat} (hactive : Active s p b) (h : Switched s p b p false t) :
      Effect s t (.revertFailover p b)
  | same {call : Call} (hregister : ∀ p b threshold, call ≠ .registerBackupSlice p b threshold)
      (hflags : ∀ p b, ¬ call.Flags s p b) (h : Same s t) : Effect s t call

theorem step_effect {k : Event} (h : Step s k t) : Effect s t k.call := by
  obtain ⟨e, vaultId, caller, call⟩ := k
  obtain ⟨_, _, ⟨-, rfl⟩, hcall⟩ : ∃ _ u, (_ ∧ s = u) ∧ execCall call e u = .ok ((), t) := by
    simpa only [Step, exec, Tx.ok_bind, ok_requireVaultOwner] using h
  have hwp : wp (execCall call) (fun _ t => Effect s t call) e s := by
    cases call with
    | registerBackupSlice p b threshold =>
        simp only [execCall, Tx.wp_bind, Tx.wp_pure]
        exact Tx.wp_mono registerBackupSlice_wp fun _ t ht => .registered ht
    | recordSliceFailure p reason =>
        simp only [execCall, Tx.wp_bind, Tx.wp_pure]
        refine Tx.wp_mono recordSliceFailure_wp fun _ t ht => ?_
        obtain ⟨b, hflags, hswitched⟩ | ⟨hnone, hsame⟩ := ht
        · exact .flagged hflags hswitched
        · refine .same (fun _ _ _ h => by cases h) (fun p' b hflags => ?_) hsame
          obtain rfl : p = p' := hflags.1
          exact hnone b hflags
    | activateFailover p b reason =>
        simp only [execCall, Tx.wp_bind, Tx.wp_pure]
        refine Tx.wp_mono activateFailover_wp fun _ t ht => ?_
        obtain ⟨hinactive, hswitched⟩ | ⟨hnone, rfl⟩ := ht
        · exact .flagged ⟨rfl, rfl, hinactive⟩ hswitched
        · refine .same (fun _ _ _ h => by cases h) (fun p' b' hflags => ?_) ⟨rfl, fun _ _ => rfl⟩
          obtain ⟨rfl, rfl, hinactive⟩ := hflags
          exact hnone hinactive
    | revertFailover p b =>
        simp only [execCall, Tx.wp_bind, Tx.wp_pure]
        refine Tx.wp_mono revertFailover_wp fun _ t ht => ?_
        obtain ⟨hactive, hswitched⟩ | rfl := ht
        · exact .reverted hactive hswitched
        · exact .same (fun _ _ _ h => by cases h) (fun _ _ h => h.elim) ⟨rfl, fun _ _ => rfl⟩
  exact hwp () t hcall

/-! ## Agreement -/

theorem Same.agree (hs : TablesAgree s) (h : Same s t) : TablesAgree t := by
  refine tablesAgree_iff.mpr fun p b => ?_
  rw [h.active_eq, h.active_iff]
  exact hs.backup p b

/-- Dropping the flag of a pair is right exactly if its primary is in use after it. -/
theorem Switched.agree_of_unflagged (hs : TablesAgree s) (h : Switched s p b active false t)
    (hprimary : active = p) (hactive : Active s p b) : TablesAgree t := by
  subst hprimary
  refine tablesAgree_iff.mpr fun p' b' => ?_
  rw [h.active_eq, h.flag_eq]
  by_cases hp : p' = active
  · subst hp
    rw [Function.update_self]
    -- the pair was the only one of its primary
    have hother : b' ≠ b → ¬ Active s p' b' := fun hne hb' => hne (hs.unique p' b' b hb' hactive)
    by_cases hb : b' = b
    · simp [hb, eq_comm]
    · simp [hb, hother hb, eq_comm]
  · rw [Function.update_of_ne hp, hs.backup p' b', if_neg fun heq => hp heq.1]

theorem Switched.registered_agree_iff (hs : TablesAgree s)
    (h : Switched s p b (activeSlice s p) false t) : TablesAgree t ↔ ¬ Active s p b := by
  rw [tablesAgree_iff, h.active_eq, Function.update_eq_self]
  constructor
  · intro ht hactive
    have hgone := (h.flag_eq p b).mp ((ht p b).mp ((hs.backup p b).mpr hactive))
    simp at hgone
  · intro hfree p' b'
    rw [hs.backup p' b', h.flag_eq]
    split
    · next heq =>
      obtain ⟨rfl, rfl⟩ := heq
      simp [hfree]
    · rfl

theorem Switched.flagged_agree_iff (hs : TablesAgree s) (h : Switched s p b b true t)
    (hfree : ¬ Active s p b) (hne : b ≠ p) : TablesAgree t ↔ activeSlice s p = p := by
  have hflag : Active t p b := (h.flag_eq p b).mpr (by simp)
  constructor
  · intro ht
    by_contra hbackup
    have hold : Active s p (activeSlice s p) := (hs.backup p _).mp ⟨rfl, hbackup⟩
    have hboth : Active t p (activeSlice s p) := by
      rw [h.flag_eq]
      split
      · rfl
      · exact hold
    exact hfree (ht.unique p _ _ hboth hflag ▸ hold)
  · intro hprimary
    refine tablesAgree_iff.mpr fun p' b' => ?_
    rw [h.active_eq, h.flag_eq]
    by_cases hp : p' = p
    · subst hp
      rw [Function.update_self]
      by_cases hb : b' = b
      · subst hb
        simp [hne]
      · simp [hb, Ne.symm hb, (hs.primary p').mp hprimary b']
    · rw [Function.update_of_ne hp, hs.backup p' b', if_neg fun heq => hp heq.1]

theorem Flags.not_active {call : Call} (h : call.Flags s p b) : ¬ Active s p b := by
  have hinactive : Inactive s p b := by
    cases call with
    | activateFailover p' b' reason => exact h.2.2
    | recordSliceFailure p' reason =>
        obtain ⟨-, -, config, hconfig, hinactive, -⟩ := h
        exact ⟨config, hconfig, hinactive⟩
    | registerBackupSlice p' b' threshold => exact h.elim
    | revertFailover p' b' => exact h.elim
  obtain ⟨config, hconfig, hoff⟩ := hinactive
  rintro ⟨config', hconfig', hon⟩
  obtain rfl : config = config' := Option.some.inj (hconfig.symm.trans hconfig')
  exact Bool.false_ne_true (hoff.symm.trans hon)

/-- A call flags one pair at most. -/
theorem Flags.pair_eq {call : Call} {p' b' : Nat} (h : call.Flags s p b)
    (h' : call.Flags s p' b') : p = p' ∧ b = b' := by
  cases call with
  | activateFailover _ _ _ => exact ⟨h.1.symm.trans h'.1, h.2.1.symm.trans h'.2.1⟩
  | recordSliceFailure _ _ =>
      obtain ⟨rfl, hb, -⟩ := h
      obtain ⟨rfl, hb', -⟩ := h'
      exact ⟨rfl, Option.some.inj (hb.symm.trans hb')⟩
  | registerBackupSlice _ _ _ => exact h.elim
  | revertFailover _ _ => exact h.elim

/-- No slice is its own backup. -/
def NoSelf (s : State) : Prop := ∀ p, configOf s p p = none

theorem Flags.ne {call : Call} (hself : NoSelf s) (h : call.Flags s p b) : b ≠ p := by
  rintro rfl
  cases call with
  | activateFailover _ _ _ =>
      obtain ⟨-, -, config, hconfig, -⟩ := h
      exact absurd (hconfig.symm.trans (hself b)) (Option.some_ne_none config)
  | recordSliceFailure _ _ =>
      obtain ⟨-, -, config, hconfig, -⟩ := h
      exact absurd (hconfig.symm.trans (hself b)) (Option.some_ne_none config)
  | registerBackupSlice _ _ _ => exact h.elim
  | revertFailover _ _ => exact h.elim

theorem NoSelf.step {k : Event} (hs : NoSelf s) (h : Step s k t) : NoSelf t := by
  obtain ⟨e, vaultId, caller, call⟩ := k
  cases step_effect h with
  | registered hswitched => exact hswitched.self_eq hs
  | flagged _ hswitched => exact hswitched.self_eq hs
  | reverted _ hswitched => exact hswitched.self_eq hs
  | same _ _ hsame => exact fun p => (hsame.config_eq p p).trans (hs p)

/-- The steps that keep the tables in agreement. -/
theorem agree_iff_safe {k : Event} (hself : NoSelf s) (hs : TablesAgree s) (h : Step s k t) :
    TablesAgree t ↔ Safe s k := by
  obtain ⟨e, vaultId, caller, call⟩ := k
  cases step_effect h with
  | @registered p b threshold hswitched =>
      rw [hswitched.registered_agree_iff hs]
      constructor
      · intro hfree
        refine ⟨fun p' b' threshold' heq => ?_, fun _ _ hflags => hflags.elim⟩
        cases heq
        exact hfree
      · exact fun hsafe => hsafe.1 p b threshold rfl
  | @flagged _ p b hflags hswitched =>
      rw [hswitched.flagged_agree_iff hs (Flags.not_active hflags) (Flags.ne hself hflags)]
      constructor
      · intro hprimary
        refine ⟨fun p' b' threshold heq => ?_, fun p' b' hflags' => ?_⟩
        · cases heq
          exact hflags.elim
        · obtain ⟨rfl, -⟩ := Flags.pair_eq hflags hflags'
          exact hprimary
      · exact fun hsafe => hsafe.2 p b hflags
  | @reverted p b hactive hswitched =>
      refine iff_of_true (hswitched.agree_of_unflagged hs rfl hactive)
        ⟨?_, fun _ _ hflags => hflags.elim⟩
      intro p' b' threshold heq
      cases heq
  | same hregister hflags hsame =>
      refine iff_of_true (hsame.agree hs) ⟨fun p b threshold heq => ?_, fun p b hcall => ?_⟩
      · exact absurd heq (hregister p b threshold)
      · exact absurd hcall (hflags p b)

theorem tablesAgree_empty : TablesAgree .empty := by
  refine tablesAgree_iff.mpr fun p b => ⟨fun h => absurd h.1.symm h.2, fun h => ?_⟩
  obtain ⟨config, hconfig, -⟩ := h
  cases hconfig

/-- The tables agree in every state of a run whose steps are safe; a step from such a
state keeps them in agreement exactly if it is safe. -/
theorem failover_tables_agree (ks : List Event) (s : State)
    (hrun : Run (Guarded Step Safe) .empty ks s) :
    TablesAgree s ∧ ∀ k t, Step s k t → (TablesAgree t ↔ Safe s k) := by
  have hboth : NoSelf s ∧ TablesAgree s := by
    refine hrun.invariant (I := fun s => NoSelf s ∧ TablesAgree s)
      ⟨fun _ => rfl, tablesAgree_empty⟩ fun t k u ht hk => ⟨ht.1.step hk.1, ?_⟩
    exact (agree_iff_safe ht.1 ht.2 hk.1).mpr hk.2
  exact ⟨hboth.2, fun k t hstep => agree_iff_safe hboth.1 hboth.2 hstep⟩

end Steps

/-! ## Runs of the owner of a vault -/

/-- The contract with vault 1 of owner 5. -/
def contractState : Heirloom.State :=
  ⟨Store.put .empty (.vault 1) (emptyVault ⟨5⟩ ⟨6⟩ 100 0 ⟨8⟩ none), ⟨fun _ _ => 0, []⟩⟩

/-- A call by the owner of vault 1, at time 7. -/
def owned (call : Call) : Event := ⟨⟨7, fun _ => true, contractState⟩, 1, ⟨5⟩, call⟩

/-- Slice 1 with backup 2. -/
def backedState : State :=
  (Store.put .empty (.backupSlices 1) [2]).put (.failoverConfig 1 2) ⟨1, 2, 3, false, 7⟩

/-- Slice 1 with backups 2 and 3. -/
def twiceBackedState : State :=
  (backedState.put (.backupSlices 1) [2, 3]).put (.failoverConfig 1 3) ⟨1, 3, 3, false, 7⟩

/-- Backup `b` is activated. -/
def activated (s : State) (b : Nat) : State :=
  (s.put (.failoverConfig 1 b) ⟨1, b, 3, true, 7⟩).put (.activeSlice 1) b

/-- Backup 2 is registered again. -/
def registeredAgain (s : State) : State :=
  (s.put (.backupSlices 1) [2, 2]).put (.failoverConfig 1 2) ⟨1, 2, 3, false, 7⟩

theorem step_backed : Step .empty (owned (.registerBackupSlice 1 2 3)) backedState := rfl

theorem step_activated :
    Step backedState (owned (.activateFailover 1 2 .explicitFailure)) (activated backedState 2) :=
  rfl

/-- One backup takes the place of its primary. -/
theorem failover_tables_agree_run :
    activeSlice (activated backedState 2) 1 = 2 ∧ TablesAgree (activated backedState 2) := by
  have hsafe : Safe .empty (owned (.registerBackupSlice 1 2 3)) := by
    refine ⟨fun p b threshold _ hactive => ?_, fun _ _ hflags => hflags.elim⟩
    obtain ⟨config, hconfig, -⟩ := hactive
    cases hconfig
  have hsafe' : Safe backedState (owned (.activateFailover 1 2 .explicitFailure)) := by
    refine ⟨fun _ _ _ heq => (nomatch heq), fun p b hflags => ?_⟩
    obtain ⟨rfl, -, -⟩ := hflags
    rfl
  have hrun : Run (Guarded Step Safe) .empty
      [owned (.activateFailover 1 2 .explicitFailure), owned (.registerBackupSlice 1 2 3)]
      (activated backedState 2) :=
    .next (.next .start ⟨step_backed, hsafe⟩) ⟨step_activated, hsafe'⟩
  exact ⟨rfl, (failover_tables_agree _ _ hrun).1⟩

/-- After a backup in use has been registered again, it is in use and not flagged. After
a second backup has been activated, both are flagged and one is in use. -/
theorem failover_tables_disagree :
    (Run Step .empty
        [owned (.registerBackupSlice 1 2 3), owned (.activateFailover 1 2 .explicitFailure),
          owned (.registerBackupSlice 1 2 3)] (registeredAgain (activated backedState 2)) ∧
      activeSlice (registeredAgain (activated backedState 2)) 1 = 2 ∧
      ∀ b, ¬ Active (registeredAgain (activated backedState 2)) 1 b) ∧
    (Run Step .empty
        [owned (.activateFailover 1 3 .explicitFailure),
          owned (.activateFailover 1 2 .explicitFailure), owned (.registerBackupSlice 1 3 3),
          owned (.registerBackupSlice 1 2 3)] (activated (activated twiceBackedState 2) 3) ∧
      activeSlice (activated (activated twiceBackedState 2) 3) 1 = 3 ∧
      Active (activated (activated twiceBackedState 2) 3) 1 2 ∧
      Active (activated (activated twiceBackedState 2) 3) 1 3) := by
  have hagain : Step (activated backedState 2) (owned (.registerBackupSlice 1 2 3))
      (registeredAgain (activated backedState 2)) := rfl
  have htwice : Step backedState (owned (.registerBackupSlice 1 3 3)) twiceBackedState := rfl
  have hfirst : Step twiceBackedState (owned (.activateFailover 1 2 .explicitFailure))
      (activated twiceBackedState 2) := rfl
  have hsecond : Step (activated twiceBackedState 2)
      (owned (.activateFailover 1 3 .explicitFailure))
      (activated (activated twiceBackedState 2) 3) := rfl
  refine ⟨⟨.next (.next (.next .start step_backed) step_activated) hagain, rfl, fun b => ?_⟩,
    .next (.next (.next (.next .start step_backed) htwice) hfirst) hsecond, rfl,
    ⟨_, rfl, rfl⟩, ⟨_, rfl, rfl⟩⟩
  rintro ⟨config, hconfig, hactive⟩
  by_cases hb : b = 2
  · subst hb
    cases hconfig
    cases hactive
  · have hnone : configOf (registeredAgain (activated backedState 2)) 1 b = none := by
      simp [registeredAgain, activated, backedState, hb, configOf]
    exact absurd (hconfig.symm.trans hnone) (Option.some_ne_none config)

end Heirloom.Modules.Failover
