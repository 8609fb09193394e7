import Mathlib.Data.List.Induction
import Heirloom.Results.ReleaseVotes

/-!
# Scheduled rotations

A rotation is meant to replace the heirs of a vault once, at the first check-in or release at or
after its time. The contract never takes an entry off the schedule: every check-in and every
release looks for the latest entry of the whole schedule whose time has come.

* `rotates_once_iff`: a check-in or a release takes each rotation once exactly if the entry in
  force gives the heirs that the rotations still to be taken ask for.
* `rotation_undoes_edit`: the owner names other heirs after a rotation, and the next check-in
  brings the rotation back.
-/

namespace Heirloom

open Transaction Runs

/-! ## What rotations are for -/

/-- The contract, with the rotations of a vault that no check-in or release has taken. -/
structure RotationBooks where
  world : World
  waiting : List BeneficiaryRotationEntry

/-- The call checks in vault `id` or releases it to its heirs. -/
def Call.takesRotation (s : State) (e : Env) (id : Nat) : Call → Bool
  | .checkIn (.checkIn i _ _ _) | .checkIn (.checkInWithGeo i _ _) => i = id
  | .checkIn (.batchCheckIn ids _) => id ∈ ids
  | .release (.triggerRelease i) | .release (.triggerReleaseManual i)
  | .release (.panicRelease i _) =>
      decide (i = id) && !(s.get (.conditionalAcceptance id)).any
        (ConditionalAcceptanceEntry.lapsed · e.timestamp)
  | _ => false

/-- The rotations of vault `id` that are still to be taken after an event. -/
def RotationBooks.waitingAfter (id : Nat) (b : RotationBooks) :
    Event → List BeneficiaryRotationEntry
  | .call e c =>
      match c with
      | .heir (.scheduleBeneficiaryRotation i _ effectiveTimestamp newBeneficiaries) =>
          if i = id then b.waiting ++ [⟨effectiveTimestamp, newBeneficiaries⟩] else b.waiting
      | c =>
          if c.takesRotation b.world.state e id = true then
            b.waiting.filter (e.timestamp < ·.effectiveTimestamp)
          else b.waiting
  | .tokens => b.waiting

def RotationStep (id : Nat) (b : RotationBooks) (k : Event) (b' : RotationBooks) : Prop :=
  Step b.world k b'.world ∧ b'.waiting = b.waitingAfter id k

/-- Of the waiting rotations, the latest whose time has come replaces the heirs. -/
inductive TakesDue (now : Nat) (waiting : List BeneficiaryRotationEntry)
    (before after : List BeneficiaryEntry) : Prop
  | kept : (∀ r ∈ waiting, now < r.effectiveTimestamp) → after = before →
      TakesDue now waiting before after
  | taken (r : BeneficiaryRotationEntry) : r ∈ waiting → r.effectiveTimestamp ≤ now →
      (∀ q ∈ waiting, q.effectiveTimestamp ≤ now → q.effectiveTimestamp ≤ r.effectiveTimestamp) →
      after = r.newBeneficiaries → TakesDue now waiting before after

/-- The entry in force, the latest that has come of all that were ever scheduled, is one that still
waits; or it gives the list that is there already, and no waiting rotation has come; or it gives
the same list as the latest waiting rotation that has come. -/
def RotationBooks.Rotatable (id : Nat) (b : RotationBooks) (now : Nat) : Prop :=
  ∀ v schedule r, b.world.state.vault id = some v →
    b.world.state.get (.beneficiaryRotationSchedule id) = some schedule →
    effectiveRotation now schedule = some r →
    r ∈ b.waiting ∨
    (r.newBeneficiaries = v.beneficiaries ∧ ∀ q ∈ b.waiting, now < q.effectiveTimestamp) ∨
    ∃ q ∈ b.waiting, r.newBeneficiaries = q.newBeneficiaries ∧ q.effectiveTimestamp ≤ now ∧
      ∀ p ∈ b.waiting, p.effectiveTimestamp ≤ now → p.effectiveTimestamp ≤ q.effectiveTimestamp

/-! ## The entry in force -/

section Schedules

variable {now : Nat} {schedule : List BeneficiaryRotationEntry} {r : BeneficiaryRotationEntry}

theorem effectiveRotation_concat : effectiveRotation now (schedule ++ [r]) =
    if r.effectiveTimestamp ≤ now ∧ (∀ a, effectiveRotation now schedule = some a →
        a.effectiveTimestamp < r.effectiveTimestamp) then some r
    else effectiveRotation now schedule := by
  unfold effectiveRotation
  rw [List.foldl_append]
  rfl

/-- Without an entry in force, no time has come. -/
theorem effectiveRotation_eq_none (h : effectiveRotation now schedule = none) :
    ∀ r ∈ schedule, now < r.effectiveTimestamp := by
  induction schedule using List.reverseRecOn with
  | nil => exact fun r hr => absurd hr List.not_mem_nil
  | append_singleton l x ih =>
      rw [effectiveRotation_concat] at h
      split at h
      · cases h
      · next hnot =>
          intro r hr
          rcases List.mem_append.mp hr with hr | hr
          · exact ih h r hr
          · obtain rfl := List.mem_singleton.mp hr
            refine not_le.mp fun hle => hnot ⟨hle, fun a ha => ?_⟩
            rw [h] at ha
            cases ha

/-- The entry in force is the latest whose time has come. -/
theorem effectiveRotation_latest (h : effectiveRotation now schedule = some r) :
    r.effectiveTimestamp ≤ now ∧ ∀ q ∈ schedule, q.effectiveTimestamp ≤ now →
      q.effectiveTimestamp ≤ r.effectiveTimestamp := by
  induction schedule using List.reverseRecOn generalizing r with
  | nil => cases h
  | append_singleton l x ih =>
      rw [effectiveRotation_concat] at h
      split at h
      · next hlater =>
          obtain rfl := Option.some.inj h
          refine ⟨hlater.1, fun q hq hdue => ?_⟩
          rcases List.mem_append.mp hq with hq | hq
          · cases hl : effectiveRotation now l with
            | none => exact absurd hdue (effectiveRotation_eq_none hl q hq).not_ge
            | some a => exact ((ih hl).2 q hq hdue).trans (hlater.2 a hl).le
          · rw [List.mem_singleton.mp hq]
      · next hnot =>
          refine ⟨(ih h).1, fun q hq hdue => ?_⟩
          rcases List.mem_append.mp hq with hq | hq
          · exact (ih h).2 q hq hdue
          · obtain rfl := List.mem_singleton.mp hq
            refine not_lt.mp fun hlt => hnot ⟨hdue, fun a ha => ?_⟩
            obtain rfl := Option.some.inj (h.symm.trans ha)
            exact hlt

/-- When the list of the entry in force is what the waiting rotations ask for. -/
theorem takesDue_iff {waiting : List BeneficiaryRotationEntry} {before : List BeneficiaryEntry}
    (hwaiting : ∀ q ∈ waiting, q ∈ schedule) (h : effectiveRotation now schedule = some r) :
    TakesDue now waiting before r.newBeneficiaries ↔ r ∈ waiting ∨
      (r.newBeneficiaries = before ∧ ∀ q ∈ waiting, now < q.effectiveTimestamp) ∨
      ∃ q ∈ waiting, r.newBeneficiaries = q.newBeneficiaries ∧ q.effectiveTimestamp ≤ now ∧
        ∀ p ∈ waiting, p.effectiveTimestamp ≤ now →
          p.effectiveTimestamp ≤ q.effectiveTimestamp := by
  constructor
  · rintro (⟨hnone, hsame⟩ | ⟨q, hq, hdue, hlatest, hsame⟩)
    · exact .inr (.inl ⟨hsame, hnone⟩)
    · exact .inr (.inr ⟨q, hq, hsame, hdue, hlatest⟩)
  · rintro (hr | ⟨hsame, hnone⟩ | ⟨q, hq, hsame, hdue, hlatest⟩)
    · obtain ⟨hdue, hlatest⟩ := effectiveRotation_latest h
      exact .taken r hr hdue (fun q hq => hlatest q (hwaiting q hq)) rfl
    · exact .kept hnone hsame
    · exact .taken q hq hdue hlatest hsame

end Schedules

/-! ## Steps -/

section Rotations

variable {e : Env} {s t : State} {c : Call} {id : Nat} {v : Vault} {k : Event}
  {b b' : RotationBooks} {w₀ : World} {ks : List Event}

theorem release_rotates {o : ReleaseCall} (hs : s.Sound) (ho : o.footprint = releaseFootprint id)
    (hlapsed : ¬ s.acceptanceLapsed id e.timestamp) (hexec : execRelease o e s = .ok ((), t)) :
    ∃ v w, s.vault id = some v ∧ t.vault id = some w ∧
      w.beneficiaries = (v.rotated e s id).beneficiaries := by
  obtain ⟨mode, hrun⟩ := execRelease_internal ho hexec
  obtain ⟨v, hv, -, -, -, hreleases⟩ := triggerReleaseInternal_spec (hs.rotationSound id) _ _ hrun
  cases hreleases with
  | refunded _ _ htx =>
      obtain ⟨v', w, hstatus⟩ := triggerReleaseInternal_status _ _ hrun
      have hafter := (htx.after id).symm.trans hstatus.after
      rw [if_pos rfl] at hafter
      refine absurd (hstatus.cancelled.mp ?_) hlapsed
      rw [← Option.some.inj hafter]
      rfl
  | vested _ htx => exact ⟨v, _, hv, (htx.after id).trans (if_pos rfl), rfl⟩
  | paid _ _ htx => exact ⟨v, _, hv, (htx.after id).trans (if_pos rfl), rfl⟩

/-- A check-in or release puts in the heirs of the entry in force. -/
theorem exec_rotates (hs : s.Sound) (hc : c.takesRotation s e id = true)
    (hexec : exec c e s = .ok ((), t)) :
    ∃ v w, s.vault id = some v ∧ t.vault id = some w ∧
      w.beneficiaries = (v.rotated e s id).beneficiaries := by
  have hone : ∀ {i a hash nonce}, i = id → checkIn i a hash nonce e s = .ok ((), t) →
      ∃ v w, s.vault id = some v ∧ t.vault id = some w ∧
        w.beneficiaries = (v.rotated e s id).beneficiaries := by
    rintro i a hash nonce rfl hcheck
    obtain ⟨v, log, htx, -⟩ := checkIn_spec _ _ hcheck
    exact ⟨v, _, htx.before, (htx.after i).trans (if_pos rfl), rfl⟩
  have hrelease : ∀ {o : ReleaseCall} {i : Nat}, o.footprint = releaseFootprint i →
      (decide (i = id) && !(s.get (.conditionalAcceptance id)).any
        (ConditionalAcceptanceEntry.lapsed · e.timestamp)) = true →
      execRelease o e s = .ok ((), t) → ∃ v w, s.vault id = some v ∧ t.vault id = some w ∧
        w.beneficiaries = (v.rotated e s id).beneficiaries := by
    intro o i ho htakes hrun
    simp only [Bool.and_eq_true, decide_eq_true_eq, Bool.not_eq_true'] at htakes
    obtain ⟨rfl, hlapsed⟩ := htakes
    exact release_rotates hs ho (by simp [State.acceptanceLapsed, hlapsed]) hrun
  unfold Call.takesRotation at hc
  split at hc
  · exact hone (of_decide_eq_true hc) hexec
  · exact hone (of_decide_eq_true hc) hexec
  · next ids a =>
      have hmem : id ∈ ids := of_decide_eq_true hc
      have hbatch : wp (batchCheckIn ids a) (fun _ t => ∃ v w, s.vault id = some v ∧
          t.vault id = some w ∧ w.beneficiaries = (v.rotated e s id).beneficiaries) e s := by
        simp only [batchCheckIn, Tx.wp_bind, wp_loadPaused, wp_require, wp_requireAuth]
        intro _ _
        refine Tx.wp_mono validateBatchCheckIn_spec ?_
        rintro _ t ⟨ht, hvalid⟩
        obtain rfl := ht.symm
        obtain ⟨v, hv, -⟩ := hvalid id hmem
        simp only [wp_timestamp]
        refine Tx.wp_mono (forEach_applyBatchCheckIn_heirs hv) ?_
        rintro _ t ⟨w, hw, -, -, hheirs⟩
        exact ⟨v, w, hv, hw, by rw [hheirs, if_pos hmem]; rfl⟩
      exact hbatch _ _ hexec
  · exact hrelease (o := .triggerRelease _) rfl hc hexec
  · exact hrelease (o := .triggerReleaseManual _) rfl hc hexec
  · exact hrelease (o := .panicRelease _ _) rfl hc hexec
  · cases hc

/-- The schedule of vault `id`, as it is stored. -/
def State.rotations (s : State) (id : Nat) : List BeneficiaryRotationEntry :=
  (s.get (.beneficiaryRotationSchedule id)).getD []

/-- Only scheduling changes the schedule, by an entry that names heirs. -/
theorem exec_schedule (id : Nat) (hnum : s.Numbered) (hexec : exec c e s = .ok ((), t)) :
    (∃ a n l, c = .heir (.scheduleBeneficiaryRotation id a n l) ∧ l ≠ [] ∧
      t.rotations id = s.rotations id ++ [⟨n, l⟩]) ∨
    (∀ a n l, c ≠ .heir (.scheduleBeneficiaryRotation id a n l)) ∧
      t.rotations id = s.rotations id := by
  by_cases harea : .heirs ∈ (c.footprint s).areas
  swap
  · refine .inr ⟨?_, ?_⟩
    · rintro a n l rfl
      exact harea (by simp [Call.footprint, HeirCall.footprint])
    · unfold State.rotations
      rw [(exec_frame c hnum _ _ hexec).get_of_area (by simpa using harea)]
  obtain ⟨o, rfl⟩ := Call.heirsArea_writer harea
  by_cases ho : ∃ i a n l, o = .scheduleBeneficiaryRotation i a n l
  · obtain ⟨i, a, n, l, rfl⟩ := ho
    have hspec : wp (scheduleBeneficiaryRotation i a n l) (fun _ t => l ≠ [] ∧
        t = s.put (.beneficiaryRotationSchedule i) (s.rotations i ++ [⟨n, l⟩])) e s := by
      simp only [scheduleBeneficiaryRotation, Tx.wp_bind, wp_loadLockedByOwner, wp_require,
        wp_validateSplit, wp_storageGet, wp_storageSet]
      exact fun _ v _ _ _ hl _ _ _ => ⟨hl, rfl⟩
    obtain ⟨hl, rfl⟩ := hspec _ _ hexec
    rcases eq_or_ne i id with rfl | hi
    · refine .inl ⟨a, n, l, rfl, hl, ?_⟩
      unfold State.rotations
      rw [State.get_put_self]
      rfl
    · refine .inr ⟨?_, ?_⟩
      · rintro a n l ⟨⟩
        exact hi rfl
      · unfold State.rotations
        rw [State.get_put_of_ne (by simpa using hi.symm)]
  · refine .inr ⟨?_, ?_⟩
    · rintro a n l ⟨⟩
      exact ho ⟨_, _, _, _, rfl⟩
    · unfold State.rotations
      rw [execHeir_rotations id (fun i a n l h => ho ⟨i, a, n, l, h⟩) _ _ hexec]

/-- What waits is on the schedule, and every entry of the schedule names heirs. -/
structure RotationBooks.Kept (id : Nat) (b : RotationBooks) : Prop where
  reachable : Reachable b.world
  waiting : ∀ r ∈ b.waiting, r ∈ b.world.state.rotations id
  named : ∀ r ∈ b.world.state.rotations id, r.newBeneficiaries ≠ []

/-- Nothing is added to what waits but the entry of a call that schedules it. -/
theorem mem_waitingAfter {r : BeneficiaryRotationEntry} (hr : r ∈ b.waitingAfter id k) :
    r ∈ b.waiting ∨ ∃ e a n l, k = .call e (.heir (.scheduleBeneficiaryRotation id a n l)) ∧
      r = ⟨n, l⟩ := by
  unfold RotationBooks.waitingAfter at hr
  split at hr
  · next e c =>
      split at hr
      · next i a n l =>
          split at hr
          · next hi =>
              rcases List.mem_append.mp hr with hr | hr
              · exact .inl hr
              · exact .inr ⟨e, a, n, l, by rw [hi], List.mem_singleton.mp hr⟩
          · exact .inl hr
      · split at hr
        · exact .inl (List.mem_filter.mp hr).1
        · exact .inl hr
  · exact .inl hr

theorem RotationBooks.Kept.step (h : b.Kept id) (hk : RotationStep id b k b') : b'.Kept id := by
  obtain ⟨hstep, hwaiting⟩ := hk
  have hreach := h.reachable.step hstep
  have hmem : ∀ r ∈ b'.waiting, r ∈ b.waiting ∨ ∃ e a n l,
      k = .call e (.heir (.scheduleBeneficiaryRotation id a n l)) ∧ r = ⟨n, l⟩ :=
    fun r hr => mem_waitingAfter (hwaiting ▸ hr)
  cases k with
  | tokens =>
      have hsame : b'.world.state.rotations id = b.world.state.rotations id := by
        generalize b'.world = w' at hstep ⊢
        cases hstep
        rfl
      refine ⟨hreach, fun r hr => ?_, hsame ▸ h.named⟩
      rcases hmem r hr with hr | ⟨e, a, n, l, hk, -⟩
      · exact hsame ▸ h.waiting r hr
      · cases hk
  | call e c =>
      rcases exec_schedule id h.reachable.numbered hstep.exec_eq with
        ⟨a, n, l, rfl, hl, hmore⟩ | ⟨hother, hsame⟩
      · refine ⟨hreach, fun r hr => ?_, fun r hr => ?_⟩
        · rw [hmore]
          rcases hmem r hr with hr | ⟨_, _, _, _, ⟨⟩, rfl⟩
          · exact List.mem_append_left _ (h.waiting r hr)
          · exact List.mem_append_right _ List.mem_cons_self
        · rw [hmore] at hr
          rcases List.mem_append.mp hr with hr | hr
          · exact h.named r hr
          · rw [List.mem_singleton.mp hr]
            exact hl
      · refine ⟨hreach, fun r hr => ?_, hsame ▸ h.named⟩
        rcases hmem r hr with hr | ⟨_, a, n, l, ⟨⟩, -⟩
        · exact hsame ▸ h.waiting r hr
        · exact absurd rfl (hother a n l)

/-- A check-in or release takes what waits exactly if the entry in force gives the same. -/
theorem RotationBooks.Kept.takes_iff (h : b.Kept id) {v w : Vault} {now : Nat}
    (hv : b.world.state.vault id = some v)
    (hw : w.beneficiaries = rotatedBeneficiaries now
      (b.world.state.get (.beneficiaryRotationSchedule id)) v.beneficiaries) :
    TakesDue now b.waiting v.beneficiaries w.beneficiaries ↔ b.Rotatable id now := by
  have hwaiting := h.waiting
  have hnamed := h.named
  unfold State.rotations at hwaiting hnamed
  unfold RotationBooks.Rotatable
  rw [hw, hv]
  cases hschedule : b.world.state.get (.beneficiaryRotationSchedule id) with
  | none =>
      rw [hschedule] at hwaiting
      refine iff_of_true (.kept (fun r hr => ?_) rfl) fun _ _ _ _ hnone => by cases hnone
      exact absurd (hwaiting r hr) List.not_mem_nil
  | some schedule =>
      rw [hschedule] at hwaiting hnamed
      cases hforce : effectiveRotation now schedule with
      | none =>
          have hkeep : rotatedBeneficiaries now (some schedule) v.beneficiaries =
              v.beneficiaries := by
            simp [rotatedBeneficiaries, hforce]
          rw [hkeep]
          refine iff_of_true (.kept (fun r hr => ?_) rfl) fun _ _ r _ hsome hr => ?_
          · exact effectiveRotation_eq_none hforce r (hwaiting r hr)
          · obtain rfl := Option.some.inj hsome
            rw [hforce] at hr
            cases hr
      | some r =>
          have hnew : rotatedBeneficiaries now (some schedule) v.beneficiaries =
              r.newBeneficiaries := by
            simp [rotatedBeneficiaries, hforce, hnamed r (effectiveRotation_mem hforce)]
          rw [hnew]
          rw [takesDue_iff hwaiting hforce]
          constructor
          · intro htakes v' schedule' r' hv' hschedule' hr'
            obtain rfl := Option.some.inj hv'
            obtain rfl := Option.some.inj hschedule'
            obtain rfl := Option.some.inj (hforce.symm.trans hr')
            exact htakes
          · exact fun hall => hall v schedule r rfl rfl hforce

/-- In every run, a check-in or release takes the latest of the waiting rotations whose time has
come, and otherwise leaves the heirs alone, if and only if the entry in force of the whole
schedule gives just these heirs. -/
theorem rotates_once_iff (h₀ : Genesis w₀) (hrun : Run (RotationStep id) ⟨w₀, []⟩ ks b) :
    ∀ e c b', RotationStep id b (.call e c) b' →
      c.takesRotation b.world.state e id = true →
      ((∃ v v', b.world.state.vault id = some v ∧ b'.world.state.vault id = some v' ∧
          TakesDue e.timestamp b.waiting v.beneficiaries v'.beneficiaries) ↔
        b.Rotatable id e.timestamp) := by
  have hkept : b.Kept id := by
    refine hrun.invariant ⟨⟨w₀, [], h₀, .start⟩, ?_, ?_⟩ fun _ _ _ h hk => h.step hk
    · exact fun r hr => absurd hr List.not_mem_nil
    · intro r hr
      unfold State.rotations at hr
      rw [h₀.get (by simp)] at hr
      exact absurd hr List.not_mem_nil
  intro e c b' hk htakes
  obtain ⟨v, w, hv, hw, hheirs⟩ := exec_rotates hkept.reachable.sound htakes hk.1.exec_eq
  have hiff := hkept.takes_iff hv hheirs
  constructor
  · rintro ⟨v', w', hv', hw', htaken⟩
    obtain rfl := Option.some.inj (hv.symm.trans hv')
    obtain rfl := Option.some.inj (hw.symm.trans hw')
    exact hiff.mp htaken
  · exact fun hrotatable => ⟨v, w, hv, hw, hiff.mpr hrotatable⟩

end Rotations

/-! ## Two runs -/

/-- A call, with its event and the books after it. -/
def RotationBooks.turn (id : Nat) (b : RotationBooks) (turn : Env × Call) :
    Option (Event × RotationBooks) :=
  (play b.world [turn]).map fun w =>
    (.call turn.1 turn.2, ⟨w, b.waitingAfter id (.call turn.1 turn.2)⟩)

theorem RotationBooks.step_of_turn {id : Nat} (b : RotationBooks) (turn : Env × Call) (k : Event)
    (b' : RotationBooks) (h : b.turn id turn = some (k, b')) : RotationStep id b k b' := by
  obtain ⟨w, hw, heq⟩ := Option.map_eq_some_iff.mp h
  cases heq
  exact ⟨step_of_play hw, rfl⟩

theorem RotationBooks.step_call {id : Nat} {b b' : RotationBooks} {turn : Env × Call} {k : Event}
    (h : b.turn id turn = some (k, b')) : RotationStep id b (.call turn.1 turn.2) b' := by
  have hstep := step_of_turn b turn k b' h
  obtain ⟨w, hw, heq⟩ := Option.map_eq_some_iff.mp h
  cases heq
  exact hstep

/-- A vault whose heirs are to be replaced at 50. -/
def rotatingCalls : List (Env × Call) :=
  [(signedBy [⟨1⟩] 0, .vault (.createVault ⟨1⟩ ⟨2⟩ 1000 none)),
    (signedBy [⟨1⟩] 0, .heir (.scheduleBeneficiaryRotation 1 ⟨1⟩ 50 [⟨⟨3⟩, 10000, 0⟩]))]

/-- The check-in of the owner at `now`. -/
def ownerCheckIn (now : Env) : Env × Call :=
  (now, .checkIn (.checkIn 1 ⟨1⟩ (Vector.replicate 32 1) 0))

/-- The first check-in after its time takes the rotation. -/
theorem rotates_once_checked_in : ∃ ks b b' v v',
    Run (RotationStep 1) ⟨initialised ⟨8⟩ ⟨9⟩, []⟩ ks b ∧ b.waiting ≠ [] ∧
    RotationStep 1 b (.call (signedBy [⟨1⟩] 60) (ownerCheckIn (signedBy [⟨1⟩] 60)).2) b' ∧
    b.world.state.vault 1 = some v ∧ b'.world.state.vault 1 = some v' ∧
    TakesDue (signedBy [⟨1⟩] 60).timestamp b.waiting v.beneficiaries v'.beneficiaries := by
  have hplay : (Runs.play (RotationBooks.turn 1) (fun _ _ => true) ⟨initialised ⟨8⟩ ⟨9⟩, []⟩
      rotatingCalls).any (fun r => (r.2.turn 1 (ownerCheckIn (signedBy [⟨1⟩] 60))).any fun _ =>
        decide (r.2.waiting = [⟨50, [⟨⟨3⟩, 10000, 0⟩]⟩] ∧
          r.2.world.state.get (.beneficiaryRotationSchedule 1) =
            some [⟨50, [⟨⟨3⟩, 10000, 0⟩]⟩])) = true := by
    decide +kernel
  obtain ⟨⟨ks, b⟩, hr, hplay⟩ := (Option.any_eq_true _ _).mp hplay
  obtain ⟨⟨k, b'⟩, hturn, hplay⟩ := (Option.any_eq_true _ _).mp hplay
  obtain ⟨hwaiting, hschedule⟩ := of_decide_eq_true hplay
  have hrun := (Runs.run_of_play RotationBooks.step_of_turn hr).unguard
  have hstep := RotationBooks.step_call hturn
  obtain ⟨v, v', hv, hv', htaken⟩ :=
    (rotates_once_iff (genesis_initialised (by decide) (by decide)) hrun _ _ _ hstep rfl).mpr (by
      intro u schedule r hu hs hforce
      obtain rfl := Option.some.inj (hschedule.symm.trans hs)
      obtain rfl : (⟨50, [⟨⟨3⟩, 10000, 0⟩]⟩ : BeneficiaryRotationEntry) = r :=
        List.mem_singleton.mp (effectiveRotation_mem hforce) ▸ rfl
      exact .inl (hwaiting ▸ List.mem_cons_self))
  exact ⟨ks, b, b', v, v', hrun, by rw [hwaiting]; exact List.cons_ne_nil _ _, hstep, hv, hv',
    htaken⟩

/-- The rotation has been taken and the owner has named another heir since; the next check-in
names the heir of the rotation again. -/
theorem rotation_undoes_edit : ∃ ks b b' v v',
    Run (RotationStep 1) ⟨initialised ⟨8⟩ ⟨9⟩, []⟩ ks b ∧ b.waiting = [] ∧
    RotationStep 1 b (.call (signedBy [⟨1⟩] 90000) (ownerCheckIn (signedBy [⟨1⟩] 90000)).2) b' ∧
    b.world.state.vault 1 = some v ∧ b'.world.state.vault 1 = some v' ∧
    v.beneficiaries = [⟨⟨4⟩, 10000, 0⟩] ∧ v'.beneficiaries = [⟨⟨3⟩, 10000, 0⟩] := by
  have hplay : (Runs.play (RotationBooks.turn 1) (fun _ _ => true) ⟨initialised ⟨8⟩ ⟨9⟩, []⟩
      (rotatingCalls ++ [ownerCheckIn (signedBy [⟨1⟩] 60),
        (signedBy [⟨1⟩] 70, .heir (.setBeneficiaries 1 ⟨1⟩ [⟨⟨4⟩, 10000, 0⟩]))])).any (fun r =>
        (r.2.turn 1 (ownerCheckIn (signedBy [⟨1⟩] 90000))).any fun q =>
          (r.2.world.state.vault 1).any fun v => (q.2.world.state.vault 1).any fun v' =>
            decide (r.2.waiting = [] ∧ v.beneficiaries = [⟨⟨4⟩, 10000, 0⟩] ∧
              v'.beneficiaries = [⟨⟨3⟩, 10000, 0⟩])) = true := by
    decide +kernel
  obtain ⟨⟨ks, b⟩, hr, hplay⟩ := (Option.any_eq_true _ _).mp hplay
  obtain ⟨⟨k, b'⟩, hturn, hplay⟩ := (Option.any_eq_true _ _).mp hplay
  obtain ⟨v, hv, hplay⟩ := (Option.any_eq_true _ _).mp hplay
  obtain ⟨v', hv', hchecks⟩ := (Option.any_eq_true _ _).mp hplay
  obtain ⟨hwaiting, hbefore, hafter⟩ := of_decide_eq_true hchecks
  exact ⟨ks, b, b', v, v', (Runs.run_of_play RotationBooks.step_of_turn hr).unguard, hwaiting,
    RotationBooks.step_call hturn, hv, hv', hbefore, hafter⟩

end Heirloom
