import Heirloom.Lib.Runs
import Heirloom.Admin
import Heirloom.Heirs
import Heirloom.Lending
import Heirloom.Multisig
import Heirloom.Ownership
import Heirloom.Passkeys
import Heirloom.Release
import Heirloom.VestingClaims
import Heirloom.Withdrawals

/-!
# The contract as a system

All entry points together: `exec` runs one call, `Step` is one call that
succeeds or a movement of tokens that the contract has no part in, and a state
is `Reachable` if a run of steps leads to it from the state that `initialize`
makes of the empty contract. A call that fails leaves no effect, so it is not a
step. Between two calls any time may pass, but the clock never goes back.

`exec_frame` says what a call leaves alone; every invariant of the contract is
proved by looking only at the calls whose footprint meets it.
-/

namespace Heirloom

open Transaction TypedStore Runs

/-- A call of the contract. -/
inductive Call
  | admin (c : AdminCall)
  | vault (c : VaultCall)
  | withdrawal (c : WithdrawalCall)
  | checkIn (c : CheckInCall)
  | heir (c : HeirCall)
  | ownership (c : OwnershipCall)
  | release (c : ReleaseCall)
  | vesting (c : VestingCall)
  | multisig (c : MultisigCall)
  | passkey (c : PasskeyCall)
  | lending (c : LendingCall)

def exec : Call → Contract Unit
  | .admin c => execAdmin c
  | .vault c => execVault c
  | .withdrawal c => execWithdrawal c
  | .checkIn c => execCheckIn c
  | .heir c => execHeir c
  | .ownership c => execOwnership c
  | .release c => execRelease c
  | .vesting c => execVesting c
  | .multisig c => execMultisig c
  | .passkey c => execPasskey c
  | .lending c => execLending c

/-- What a call may write. -/
def Call.footprint (s : State) : Call → Footprint
  | .admin _ => ⟨[], [], [.config]⟩
  | .vault c => c.footprint s
  | .withdrawal c => c.footprint
  | .checkIn c => c.footprint s
  | .heir c => c.footprint
  | .ownership c => c.footprint
  | .release c => c.footprint
  | .vesting c => c.footprint
  | .multisig c => c.footprint
  | .passkey c => c.footprint
  | .lending c => c.footprint

/-- The areas that the calls of a family write, all together. -/
def Call.areas : Call → List Area
  | .admin _ => [.config]
  | .vault _ =>
      [.count, .indexes, .duplicates, .keyring, .codes, .snapshots, .transitions, .registry]
  | .withdrawal _ => [.withdrawals, .payouts]
  | .checkIn _ => [.checkIns, .cooldown, .indexes, .hibernation]
  | .heir _ => [.heirs, .transfers, .indexes, .delegations, .forfeiture]
  | .ownership _ => [.indexes, .transfers]
  | .release _ => [.registry, .transitions, .duplicates, .release]
  | .vesting _ =>
      [.schedules, .vesting, .rollover, .milestones, .forfeiture, .penalties, .staking]
  | .multisig _ => [.multisig, .indexes]
  | .passkey _ => [.codes, .keyring, .passkeys, .recovery]
  | .lending _ => [.lending]

/-- The parts of vaults that the calls of a family write, all together. -/
def Call.parts : Call → List Part
  | .admin _ | .lending _ => []
  | .vault _ => [.creation, .balance, .funds, .burn, .limit, .status]
  | .withdrawal _ | .vesting _ => [.balance, .funds]
  | .checkIn _ => [.deadline, .heirs, .balance, .funds, .interval]
  | .heir _ => [.heirs, .allocations, .beneficiary, .balance, .funds]
  | .ownership _ => [.owner]
  | .release _ => [.balance, .status, .heirs, .funds]
  | .multisig _ => [.owner, .beneficiary, .balance, .deadline, .interval, .status, .funds]
  | .passkey _ => [.deadline, .passkey]

/-- A call writes nothing that its family does not. -/
theorem Call.footprint_family {s : State} (c : Call) :
    (c.footprint s).areas ⊆ c.areas ∧ (c.footprint s).parts ⊆ c.parts := by
  cases c with
  | admin c => exact ⟨List.Subset.refl _, List.nil_subset _⟩
  | vault c => cases c <;> simp [Call.footprint, VaultCall.footprint, State.creation, areas, parts]
  | withdrawal c => cases c <;> simp [Call.footprint, WithdrawalCall.footprint, areas, parts]
  | checkIn c => cases c <;> simp [Call.footprint, CheckInCall.footprint, areas, parts]
  | heir c => cases c <;> simp [Call.footprint, HeirCall.footprint, areas, parts]
  | ownership c => cases c <;> simp [Call.footprint, OwnershipCall.footprint, areas, parts]
  | release c =>
      cases c <;> simp [Call.footprint, ReleaseCall.footprint, releaseFootprint, areas, parts]
  | vesting c => cases c <;> simp [Call.footprint, VestingCall.footprint, areas, parts]
  | multisig c => cases c <;> simp [Call.footprint, MultisigCall.footprint, areas, parts]
  | passkey c => cases c <;> simp [Call.footprint, PasskeyCall.footprint, areas, parts]
  | lending c => cases c <;> simp [Call.footprint, LendingCall.footprint, areas, parts]

theorem Call.mem_areas {s : State} {c : Call} {a : Area} (h : a ∈ (c.footprint s).areas) :
    a ∈ c.areas := c.footprint_family.1 h

theorem Call.mem_parts {s : State} {c : Call} {p : Part} (h : p ∈ (c.footprint s).parts) :
    p ∈ c.parts := c.footprint_family.2 h

/-- A call changes nothing outside its footprint. -/
theorem exec_frame {e : Env} {s : State} (c : Call) (hs : s.Numbered) :
    wp (exec c) (fun _ t => Frame (c.footprint s) s t) e s := by
  cases c with
  | admin c => exact execAdmin_frame c
  | vault c => exact execVault_frame c hs
  | withdrawal c => exact execWithdrawal_frame c
  | checkIn c => exact execCheckIn_frame c
  | heir c => exact execHeir_frame c
  | ownership c => exact execOwnership_frame c
  | release c => exact execRelease_frame c
  | vesting c => exact execVesting_frame c
  | multisig c => exact execMultisig_frame c
  | passkey c => exact execPasskey_frame c
  | lending c => exact execLending_frame c

/-! ## Steps and runs -/

/-- The state of the contract and the time of the last call. -/
structure World where
  state : State
  clock : Nat

/-- What can happen. -/
inductive Event
  /-- A call, in the environment it sees. -/
  | call (e : Env) (c : Call)
  /-- Tokens move without the contract. -/
  | tokens

/-- One step of the system. -/
inductive Step : World → Event → World → Prop
  | call {w : World} {e : Env} {c : Call} {t : State} :
      w.clock ≤ e.timestamp → exec c e w.state = .ok ((), t) →
      Step w (.call e c) ⟨t, e.timestamp⟩
  /-- Nobody but the contract can move what the contract holds. -/
  | tokens {w : World} {l : TokenLedger.Ledger Address Address} :
      l.log = w.state.ledger.log →
      (∀ token, w.state.holding token currentContractAddress ≤
        l.holding token currentContractAddress) →
      Step w .tokens ⟨{ w.state with ledger := l }, w.clock⟩

/-- The contract right after `initialize`. -/
def Genesis (w : World) : Prop :=
  ∃ (e : Env) (token admin : Address) (l : TokenLedger.Ledger Address Address),
    (∀ t, 0 ≤ l.holding t currentContractAddress) ∧ w.clock = e.timestamp ∧
      initializeContract token admin e ⟨.empty, l⟩ = .ok ((), w.state)

/-- Some run from the initialised contract leads to `w`. -/
def Reachable (w : World) : Prop := ∃ w₀ ks, Genesis w₀ ∧ Run Step w₀ ks w

section Systems

variable {w w' : World} {s t : State} {e : Env} {c : Call} {k : DataKey}

/-- Only the configuration is set at first. -/
theorem Genesis.get (h : Genesis w) (hk : k.area ≠ .config) : w.state.get k = none := by
  obtain ⟨e, token, admin, l, _, _, hinit⟩ := h
  simp only [initializeContract, Tx.ok_bind, ok_storageGet, ok_require, ok_requireAuth,
    ok_storageSet] at hinit
  obtain ⟨_, _, ⟨rfl, rfl⟩, _, _, ⟨rfl, rfl⟩, _, _, ⟨_, rfl⟩, _, _, ⟨_, rfl⟩, _, _, ⟨_, rfl⟩,
    _, _, rfl, _, _, rfl, hw⟩ := hinit
  have hne : ∀ k', k'.area = .config → k ≠ k' := fun k' hk' he => hk (he ▸ hk')
  rw [← hw, State.get_put_of_ne (hne _ rfl), State.get_put_of_ne (hne _ rfl),
    State.get_put_of_ne (hne _ rfl)]
  rfl

theorem Genesis.vault (h : Genesis w) (id : Nat) : w.state.vault id = none :=
  h.get (k := .vault id) (by simp)

/-! ## The numbering of vaults -/

/-- What `exec` does to the vault count, for the calls that create a vault. -/
theorem numbered_of_creates {v : Vault} (h : Creates v s t) (hs : s.Numbered) : t.Numbered := by
  intro id hid
  rw [h.count] at hid
  rw [h.vault, if_neg (by omega)]
  exact hs id (by omega)

theorem numbered_of_frame {f : Footprint} (h : Frame f s t) (hc : .creation ∉ f.parts)
    (hcount : .count ∉ f.areas) (hs : s.Numbered) : t.Numbered := by
  have hsame : t.count = s.count := by
    simp [State.count, h.get_of_area (k := .vaultCount) (by simpa using hcount)]
  intro id hid
  exact h.created.resolve_left hc id (hs id (hsame ▸ hid))

/-- The calls that create a vault. -/
def Call.Creating : Call → Prop
  | .vault (.createVault ..) | .vault (.createVaultFromInheritance ..) | .vault (.cloneVault ..)
  | .vault (.cloneVaultWithOverrides ..) => True
  | _ => False

theorem exec_creates (hc : c.Creating) : wp (exec c) (fun _ t => ∃ v, Creates v s t) e s := by
  cases c with
  | vault c =>
      cases c with
      | createVault =>
          simp only [exec, execVault, Tx.wp_bind, Tx.wp_pure]
          exact createVault_spec
      | createVaultFromInheritance =>
          simp only [exec, execVault, Tx.wp_bind, Tx.wp_pure]
          exact createVaultFromInheritance_spec
      | cloneVault =>
          simp only [exec, execVault, Tx.wp_bind, Tx.wp_pure]
          exact cloneVault_spec
      | cloneVaultWithOverrides =>
          simp only [exec, execVault, Tx.wp_bind, Tx.wp_pure]
          exact cloneVaultWithOverrides_spec
      | _ => exact hc.elim
  | _ => exact hc.elim

/-- Every other call leaves alone which vaults there are. -/
theorem Call.not_creation (hc : ¬ c.Creating) :
    .creation ∉ (c.footprint s).parts ∧ .count ∉ (c.footprint s).areas := by
  cases c with
  | vault c => cases c <;> first | exact absurd trivial hc | simp [Call.footprint, VaultCall.footprint]
  | _ => exact ⟨mt Call.mem_parts (by simp [Call.parts]), mt Call.mem_areas (by simp [Call.areas])⟩

theorem exec_numbered (hs : s.Numbered) : wp (exec c) (fun _ t => t.Numbered) e s := by
  by_cases hc : c.Creating
  · exact Tx.wp_mono (exec_creates hc) fun _ _ ⟨_, h⟩ => numbered_of_creates h hs
  · exact Tx.wp_mono (exec_frame c hs) fun _ _ h =>
      numbered_of_frame h (Call.not_creation hc).1 (Call.not_creation hc).2 hs

theorem Genesis.numbered (h : Genesis w) : w.state.Numbered := fun id _ => h.vault id

theorem Step.exec_eq (h : Step w (.call e c) w') : exec c e w.state = .ok ((), w'.state) := by
  cases h with
  | call _ hexec => exact hexec

theorem Step.numbered {k : Event} (h : Step w k w') (hw : w.state.Numbered) :
    w'.state.Numbered := by
  cases h with
  | call _ hexec => exact exec_numbered hw _ _ hexec
  | tokens _ _ => exact hw

theorem numbered_of_run {w₀ : World} {ks : List Event} (h : Run Step w₀ ks w) (h₀ : Genesis w₀) :
    w.state.Numbered :=
  h.invariant h₀.numbered fun _ _ _ hw hstep => hstep.numbered hw

theorem Reachable.numbered (h : Reachable w) : w.state.Numbered := by
  obtain ⟨w₀, ks, h₀, hrun⟩ := h
  exact numbered_of_run hrun h₀

theorem Step.clock_le {k : Event} (h : Step w k w') : w.clock ≤ w'.clock := by
  cases h with
  | call hclock _ => exact hclock
  | tokens _ _ => exact le_rfl

/-! ## Invariants of guarded runs -/

/-- A condition on the calls of a run. -/
def OnCalls (P : State → Env → Call → Prop) : World → Event → Prop
  | w, .call e c => P w.state e c
  | _, .tokens => True

/-- What holds at first and is kept by every call that meets `P`, and does not
depend on the tokens, holds along every run whose calls meet `P`. -/
theorem invariant_of_calls {P : State → Env → Call → Prop} {I : State → Prop} {w₀ : World}
    {ks : List Event} (h₀ : Genesis w₀) (hrun : Run (Guarded Step (OnCalls P)) w₀ ks w)
    (hstart : I w₀.state)
    (hcall : ∀ {s e c}, s.Numbered → I s → P s e c → wp (exec c) (fun _ t => I t) e s)
    (htokens : ∀ {s} l, I s → I { s with ledger := l }) : I w.state := by
  have hboth : w.state.Numbered ∧ I w.state := by
    refine hrun.invariant (I := fun w => w.state.Numbered ∧ I w.state) ⟨h₀.numbered, hstart⟩ ?_
    rintro w k w' ⟨hnum, hI⟩ ⟨hstep, hP⟩
    refine ⟨hstep.numbered hnum, ?_⟩
    cases hstep with
    | call _ hexec => exact hcall hnum hI hP _ _ hexec
    | tokens _ _ => exact htokens _ hI
  exact hboth.2

/-- The rule for a property of the history and the state. -/
theorem history_of_calls {P : State → Env → Call → Prop} {I : List Event → World → Prop}
    {w₀ : World} {ks : List Event} (h₀ : Genesis w₀)
    (hrun : Run (Guarded Step (OnCalls P)) w₀ ks w) (hstart : I [] w₀)
    (hcall : ∀ {ks w e c t}, w.state.Numbered → I ks w → P w.state e c → w.clock ≤ e.timestamp →
      exec c e w.state = .ok ((), t) → I (.call e c :: ks) ⟨t, e.timestamp⟩)
    (htokens : ∀ {ks w} l, I ks w → I (.tokens :: ks) ⟨{ w.state with ledger := l }, w.clock⟩) :
    I ks w := by
  have hboth : w.state.Numbered ∧ I ks w := by
    refine hrun.invariantHistory (I := fun ks w => w.state.Numbered ∧ I ks w)
      ⟨h₀.numbered, hstart⟩ ?_
    rintro ks w k w' ⟨hnum, hI⟩ ⟨hstep, hP⟩
    refine ⟨hstep.numbered hnum, ?_⟩
    cases hstep with
    | call hclock hexec => exact hcall hnum hI hP hclock hexec
    | tokens _ _ => exact htokens _ hI
  exact hboth.2

/-- The rule for a property of the history and the state of an unrestricted run. -/
theorem history_of_run {I : List Event → World → Prop} {w₀ : World} {ks : List Event}
    (h₀ : Genesis w₀) (hrun : Run Step w₀ ks w) (hstart : I [] w₀)
    (hcall : ∀ {ks w e c t}, w.state.Numbered → I ks w → w.clock ≤ e.timestamp →
      exec c e w.state = .ok ((), t) → I (.call e c :: ks) ⟨t, e.timestamp⟩)
    (htokens : ∀ {ks w} l, I ks w → I (.tokens :: ks) ⟨{ w.state with ledger := l }, w.clock⟩) :
    I ks w := by
  have hboth : w.state.Numbered ∧ I ks w := by
    refine hrun.invariantHistory (I := fun ks w => w.state.Numbered ∧ I ks w)
      ⟨h₀.numbered, hstart⟩ ?_
    rintro ks w k w' ⟨hnum, hI⟩ hstep
    refine ⟨hstep.numbered hnum, ?_⟩
    cases hstep with
    | call hclock hexec => exact hcall hnum hI hclock hexec
    | tokens _ _ => exact htokens _ hI
  exact hboth.2

/-- The rule for unrestricted runs. -/
theorem reachable_invariant {I : State → Prop} (h : Reachable w)
    (hstart : ∀ w, Genesis w → I w.state)
    (hcall : ∀ {s e c}, s.Numbered → I s → wp (exec c) (fun _ t => I t) e s)
    (htokens : ∀ {s} l, I s → I { s with ledger := l }) : I w.state := by
  obtain ⟨w₀, ks, h₀, hrun⟩ := h
  have hboth : w.state.Numbered ∧ I w.state := by
    refine hrun.invariant (I := fun w => w.state.Numbered ∧ I w.state)
      ⟨h₀.numbered, hstart _ h₀⟩ ?_
    rintro w k w' ⟨hnum, hI⟩ hstep
    refine ⟨hstep.numbered hnum, ?_⟩
    cases hstep with
    | call _ hexec => exact hcall hnum hI _ _ hexec
    | tokens _ _ => exact htokens _ hI
  exact hboth.2

/-! ## Who writes what -/

/-- The owner of a vault changes by a transfer or by a proposal. -/
theorem Call.owner_writer (h : .owner ∈ (c.footprint s).parts) :
    (∃ id a b, c = .ownership (.transferOwnership id a b)) ∨
    (∃ id a, c = .ownership (.acceptOwnershipTransfer id a)) ∨
    ∃ id p a, c = .multisig (.executeMultisig id p a) := by
  cases c with
  | ownership c => cases c <;> simp [Call.footprint, OwnershipCall.footprint] at h ⊢
  | multisig c => cases c <;> simp [Call.footprint, MultisigCall.footprint] at h ⊢
  | _ => simpa [Call.parts] using Call.mem_parts h

theorem Call.beneficiary_writer (h : .beneficiary ∈ (c.footprint s).parts) :
    (∃ id a, c = .heir (.applyBeneficiaryUpdate id a)) ∨
    ∃ id p a, c = .multisig (.executeMultisig id p a) := by
  cases c with
  | heir c => cases c <;> simp [Call.footprint, HeirCall.footprint] at h ⊢
  | multisig c => cases c <;> simp [Call.footprint, MultisigCall.footprint] at h ⊢
  | _ => simpa [Call.parts] using Call.mem_parts h

/-- Pending requests are written by the calls about ownership and by the two steps
of a beneficiary update. -/
theorem Call.transfers_writer (h : .transfers ∈ (c.footprint s).areas) :
    (∃ o, c = .ownership o) ∨ (∃ id a b, c = .heir (.updateBeneficiary id a b)) ∨
    ∃ id a, c = .heir (.applyBeneficiaryUpdate id a) := by
  cases c with
  | heir c => cases c <;> simp [Call.footprint, HeirCall.footprint] at h ⊢
  | ownership c => exact .inl ⟨c, rfl⟩
  | _ => simpa [Call.areas] using Call.mem_areas h

/-- Only two calls change the heirs of a vault that is not locked. -/
theorem Call.allocations_writer (h : .allocations ∈ (c.footprint s).parts) :
    (∃ id a b, c = .heir (.clawbackPostRelease id a b)) ∨
    ∃ id a x y, c = .heir (.swapAllocations id a x y) := by
  cases c with
  | heir c => cases c <;> simp [Call.footprint, HeirCall.footprint] at h ⊢
  | _ => simpa [Call.parts] using Call.mem_parts h

/-- Vesting schedules are written by the calls about vesting. -/
theorem Call.schedules_writer
    (h : .schedules ∈ (c.footprint s).areas ∨ .milestones ∈ (c.footprint s).areas ∨
      .rollover ∈ (c.footprint s).areas ∨ .penalties ∈ (c.footprint s).areas) :
    ∃ o, c = .vesting o := by
  cases c with
  | vesting c => exact ⟨c, rfl⟩
  | _ => rcases h with h | h | h | h <;> simpa [Call.areas] using Call.mem_areas h

/-- Only administration writes the configuration. -/
theorem Call.config_writer (h : .config ∈ (c.footprint s).areas) : ∃ o, c = .admin o := by
  cases c with
  | admin c => exact ⟨c, rfl⟩
  | _ => simpa [Call.areas] using Call.mem_areas h

/-- All that a call can do to the milestone schedule of vault `id`. -/
theorem exec_milestones (id : Nat) (hs : s.Numbered) :
    wp (exec c) (fun _ t =>
      t.get (.milestoneVestingSchedule id) = s.get (.milestoneVestingSchedule id) ∨
        ∃ o, c = .vesting o ∧ MilestoneStep id s t o) e s := by
  intro _ t hexec
  have hframe : Frame (c.footprint s) s t := exec_frame c hs _ _ hexec
  by_cases hid : id ∈ (c.footprint s).vaults
  swap
  · exact .inl (hframe.get_of_vault rfl hid)
  by_cases harea : .milestones ∈ (c.footprint s).areas
  swap
  · exact .inl (hframe.get_of_area (by simpa using harea))
  obtain ⟨o, rfl⟩ := Call.schedules_writer (.inr (.inl harea))
  obtain ⟨i, hstep⟩ := execVesting_milestones harea _ _ hexec
  obtain rfl : id = i := by simpa [Call.footprint, hstep.vaults] using hid
  exact .inr ⟨o, rfl, hstep⟩

end Systems

/-! ## Playing a sequence of calls -/

/-- Runs the calls one after the other, as long as they succeed. -/
def play : World → List (Env × Call) → Option World
  | w, [] => some w
  | w, (e, c) :: rest =>
      if w.clock ≤ e.timestamp then
        match exec c e w.state with
        | .ok (_, t) => play ⟨t, e.timestamp⟩ rest
        | .error _ => none
      else none

/-- The events of a sequence of calls, newest first. -/
def eventsOf (calls : List (Env × Call)) : List Event :=
  (calls.map fun p => Event.call p.1 p.2).reverse

theorem run_of_play {w w' : World} {calls : List (Env × Call)} (h : play w calls = some w') :
    Run Step w (eventsOf calls) w' := by
  induction calls generalizing w with
  | nil =>
      obtain rfl : w = w' := by simpa [play] using h
      exact .start
  | cons p rest ih =>
      obtain ⟨e, c⟩ := p
      simp only [play] at h
      split at h
      · next hclock =>
          cases hexec : exec c e w.state with
          | error err => simp [hexec] at h
          | ok r =>
              obtain ⟨⟨⟩, t⟩ := r
              rw [hexec] at h
              have hstep : Run Step w [.call e c] ⟨t, e.timestamp⟩ := .next .start (.call hclock hexec)
              simpa [eventsOf] using hstep.trans (ih h)
      · cases h

theorem step_of_play {w w' : World} {e : Env} {c : Call} (h : play w [(e, c)] = some w') :
    Step w (.call e c) w' := by
  cases run_of_play h with
  | next hstart hstep =>
      cases hstart with
      | start => exact hstep

/-- One call that meets a condition. -/
theorem guarded_step_of_play {P : State → Env → Call → Prop} {w w' : World} {e : Env} {c : Call}
    (hP : P w.state e c) (h : play w [(e, c)] = some w') :
    Guarded Step (OnCalls P) w (.call e c) w' :=
  ⟨step_of_play h, hP⟩

/-- Calls that meet a condition in every state meet it in a run. -/
theorem guarded_of_play {P : State → Env → Call → Prop} {w w' : World}
    {calls : List (Env × Call)} (hP : ∀ p ∈ calls, ∀ s, P s p.1 p.2)
    (h : play w calls = some w') : Run (Guarded Step (OnCalls P)) w (eventsOf calls) w' := by
  have hguard : ∀ {ks : List Event} {w₀ w₁ : World}, Run Step w₀ ks w₁ →
      (∀ k ∈ ks, ∀ w, OnCalls P w k) → Run (Guarded Step (OnCalls P)) w₀ ks w₁ := by
    intro ks w₀ w₁ hrun hks
    induction hrun with
    | start => exact .start
    | next _ hk ih =>
        obtain ⟨hlast, hrest⟩ := List.forall_mem_cons.mp hks
        exact .next (ih hrest) ⟨hk, hlast _⟩
  refine hguard (run_of_play h) fun k hk w => ?_
  obtain ⟨p, hp, rfl⟩ := List.mem_map.mp (List.mem_reverse.mp hk)
  exact hP p hp w.state

/-- The part of a call has returned. -/
def succeeded {α : Type} : Except Failure (α × State) → Bool
  | .ok _ => true
  | .error _ => false

/-- The part of a call has failed with the given error. -/
def failedWith {α : Type} (err : ContractError) : Except Failure (α × State) → Bool
  | .error (.error err') => decide (err' = err)
  | _ => false

theorem ok_of_succeeded {α : Type} {r : Except Failure (α × State)} (h : succeeded r = true) :
    ∃ a t, r = .ok (a, t) := by
  cases r with
  | ok p => exact ⟨p.1, p.2, rfl⟩
  | error _ => cases h

theorem error_of_failedWith {α : Type} {err : ContractError} {r : Except Failure (α × State)}
    (h : failedWith err r = true) : r = .error (.error err) := by
  unfold failedWith at h
  split at h
  · rw [of_decide_eq_true h]
  · cases h

/-- A call signed by the given addresses, on a ledger where every token takes every
transfer and no oracle answers. -/
def signedBy (signers : List Address) (now : Nat) : Env where
  timestamp := min now u64Max
  timestamp_le := min_le_right _ _
  authorized a := decide (a ∈ signers ∧ a ≠ currentContractAddress)
  contract_unauthorized := by simp
  tokenAccepts _ _ _ _ := true
  queryRelease _ := none
  sha256 _ := Vector.replicate 32 0
  toXdr _ := []
  randomBytes := []

/-- A ledger on which everybody but the contract holds plenty. -/
def plenty : TokenLedger.Ledger Address Address where
  holding _ a := if a = currentContractAddress then 0 else 1000000000
  log := []

/-- The contract as `admin` has initialised it for `token`. -/
def initialised (token admin : Address) : World where
  state := (((⟨.empty, plenty⟩ : State).put .tokenAddress token).put .admin admin).put .paused false
  clock := 0

/-- Owner 1 opens a vault for heir 2. -/
@[simp] def opensVault (interval : Nat) : Env × Call :=
  (signedBy [⟨1⟩] 0, .vault (.createVault ⟨1⟩ ⟨2⟩ interval none))

/-- Owner 1 pays into the first vault. -/
@[simp] def paysIn (amount : Int) : Env × Call :=
  (signedBy [⟨1⟩] 0, .vault (.deposit 1 ⟨1⟩ amount))

theorem genesis_initialised {token admin : Address} (h : token ≠ admin)
    (ha : admin ≠ currentContractAddress) : Genesis (initialised token admin) := by
  refine ⟨signedBy [admin] 0, token, admin, plenty, by simp [plenty], by simp [signedBy, initialised],
    ?_⟩
  simp [initializeContract, initialised, h, ha, signedBy, State.get]

theorem reachable_of_play {cs : List (Env × Call)} {w : World}
    (h : play (initialised ⟨8⟩ ⟨9⟩) cs = some w) : Reachable w :=
  ⟨_, _, genesis_initialised (by decide) (by decide), run_of_play h⟩

end Heirloom
