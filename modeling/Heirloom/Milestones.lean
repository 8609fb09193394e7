import Heirloom.Vesting
import Mathlib.Algebra.Order.BigOperators.Group.List

/-!
# What a milestone claim is worth

`claim_milestone_installments` runs over the milestones with an accumulator: a
claimable milestone is worth its part of the whole, and the last entry of the
list is worth what is left of the whole. The loop has a closed form
(`milestoneClaim_eq`): as soon as the last entry is claimable, the claim takes
everything not paid yet, whatever the other milestones are.
-/

namespace Heirloom

open Transaction

namespace MilestoneVestingSchedule

/-- The rounded part of one milestone. -/
def share (ms : MilestoneVestingSchedule) (m : MilestoneEntry) : Int :=
  Split.part ms.totalAmount 10000 m.bps

/-- What the milestones that meet `p` are worth. -/
def worth (ms : MilestoneVestingSchedule) (p : MilestoneEntry → Bool) : Int :=
  ((ms.milestones.filter p).map ms.share).sum

/-- The last entry of the list can be claimed. -/
def lastClaimable (ms : MilestoneVestingSchedule) : Bool :=
  ms.milestones.getLast?.any (·.claimable)

/-- The amount that a claim pays. -/
def due (ms : MilestoneVestingSchedule) : Int :=
  if ms.lastClaimable = true then ms.totalAmount - ms.claimedAmount else ms.worth (·.claimable)

/-- A schedule as `set_milestone_vesting` makes it and claims leave it. Until the
last milestone is claimed, no more has been paid than the parts of the claimed ones. -/
structure Sound (ms : MilestoneVestingSchedule) : Prop where
  total : 0 ≤ ms.totalAmount
  bps : (ms.milestones.map (·.bps)).sum = 10000
  claimed : (∀ m ∈ ms.milestones.getLast?, m.claimed = false) →
    ms.claimedAmount ≤ ms.worth (·.claimed)

/-- The schedule after a claim of `amount`. -/
def afterClaim (ms : MilestoneVestingSchedule) (amount : Int) : MilestoneVestingSchedule :=
  { ms with
    milestones := ms.milestones.map fun m => if m.claimable = true then { m with claimed := true } else m
    claimedAmount := ms.claimedAmount + amount }

end MilestoneVestingSchedule

section Due

variable {e : Env} {s t : State} {ms : MilestoneVestingSchedule} {l : List MilestoneEntry}
  {total x : Int} {k : Nat}

theorem milestoneRound_eq {entry : MilestoneEntry × Nat}
    (h : milestoneRound ms total entry e s = .ok (x, t)) :
    t = s ∧ x = if entry.1.claimable = true then
      (if entry.2 + 1 = ms.milestones.length then ms.totalAmount - ms.claimedAmount
        else total + ms.share entry.1) else total := by
  simp only [milestoneRound, Tx.ok_ite, Tx.ok_bind, ok_i128, Tx.ok_pure] at h
  obtain ⟨hc, ⟨hl, _, _, ⟨_, rfl, rfl⟩, _, _, ⟨_, rfl, rfl⟩, _, rfl, rfl⟩ |
    ⟨hl, _, _, ⟨_, rfl, rfl⟩, _, rfl, rfl⟩⟩ | ⟨hc, rfl, rfl⟩ := h
  · simp only [hc, hl, if_true, true_and]
    omega
  · simp [hc, hl, MilestoneVestingSchedule.share, Split.part]
  · simp [hc]

/-- The loop from position `k` on, with `total` already counted. -/
theorem milestoneLoop_eq (hk : k + l.length = ms.milestones.length)
    (h : foldEach (l.zipIdx k) total (milestoneRound ms) e s = .ok (x, t)) :
    t = s ∧ x = if l.getLast?.any (·.claimable) = true then ms.totalAmount - ms.claimedAmount
      else total + ((l.filter (·.claimable)).map ms.share).sum := by
  induction l generalizing k total s with
  | nil =>
      simp only [List.zipIdx_nil, foldEach, Tx.ok_pure] at h
      simp [h.1, h.2]
  | cons m l ih =>
      simp only [List.zipIdx_cons, foldEach, Tx.ok_bind] at h
      obtain ⟨y, u, hround, hrest⟩ := h
      obtain ⟨rfl, rfl⟩ := milestoneRound_eq hround
      obtain ⟨rfl, rfl⟩ := ih (by simp at hk; omega) hrest
      refine ⟨rfl, ?_⟩
      cases l with
      | nil =>
          -- the last entry: whatever was counted before it drops out
          have hlast : k + 1 = ms.milestones.length := by simpa using hk
          by_cases hc : m.claimable = true <;> simp [hc, hlast]
      | cons m' l =>
          have hmid : k + 1 ≠ ms.milestones.length := by simp at hk; omega
          rw [List.getLast?_cons_cons]
          by_cases hc : m.claimable = true
          · simp only [hc, hmid, if_true, if_false, List.filter_cons, List.map_cons, List.sum_cons]
            split <;> omega
          · simp [hc, List.filter_cons]

/-- The closed form of the loop. -/
theorem milestoneClaim_eq (h : milestoneClaim ms e s = .ok (x, t)) : x = ms.due := by
  have hloop : foldEach (ms.milestones.zipIdx 0) 0 (milestoneRound ms) e s = .ok (x, t) := h
  have heq := (milestoneLoop_eq (by simp) hloop).2
  rw [zero_add] at heq
  exact heq

end Due

/-! ## Well-formed schedules -/

section Sound

variable {ms : MilestoneVestingSchedule} {l : List MilestoneEntry} {total : Int}
  {p : MilestoneEntry → Bool}

theorem sum_bps_filter_le : ((l.filter p).map (·.bps)).sum ≤ (l.map (·.bps)).sum := by
  induction l with
  | nil => simp
  | cons m l ih =>
      by_cases hp : p m = true <;> simp [hp] <;> omega

theorem sum_parts_le (h : 0 ≤ total) :
    (l.map fun m => Split.part total 10000 m.bps).sum * 10000 ≤
      total * ((l.map (·.bps)).sum : Nat) := by
  induction l with
  | nil => simp
  | cons m l ih =>
      have hpart : Split.part total 10000 m.bps * 10000 ≤ total * m.bps :=
        Split.part_mul_le h (by decide)
      simp only [List.map_cons, List.sum_cons, Nat.cast_add, mul_add, add_mul]
      omega

namespace MilestoneVestingSchedule

theorem worth_nonneg (h : 0 ≤ ms.totalAmount) : 0 ≤ ms.worth p := by
  refine List.sum_nonneg fun x hx => ?_
  obtain ⟨m, _, rfl⟩ := List.mem_map.mp hx
  exact Split.part_nonneg h (by decide)

theorem Sound.worth_le (h : ms.Sound) : ms.worth p ≤ ms.totalAmount := by
  have hparts : ms.worth p * 10000 ≤
      ms.totalAmount * (((ms.milestones.filter p).map (·.bps)).sum : Nat) := sum_parts_le h.total
  have hbps : ((ms.milestones.filter p).map (·.bps)).sum ≤ 10000 := h.bps ▸ sum_bps_filter_le
  have hall : ms.totalAmount * (((ms.milestones.filter p).map (·.bps)).sum : Nat) ≤
      ms.totalAmount * 10000 :=
    Int.mul_le_mul_of_nonneg_left (by exact_mod_cast hbps) h.total
  omega

/-- A claimable last milestone has not been claimed. -/
theorem last_unclaimed (h : ms.lastClaimable = true) :
    ∀ m ∈ ms.milestones.getLast?, m.claimed = false := by
  intro m hm
  rw [Option.mem_def] at hm
  have hc : m.claimable = true := by simpa [lastClaimable, hm] using h
  simp only [MilestoneEntry.claimable, Bool.and_eq_true, Bool.not_eq_true'] at hc
  exact hc.2

theorem Sound.due_nonneg (h : ms.Sound) : 0 ≤ ms.due := by
  unfold due
  split
  · next hlast =>
      have hpaid := h.claimed (last_unclaimed hlast)
      have := h.worth_le (p := (·.claimed))
      omega
  · exact worth_nonneg h.total

/-- A claim adds the claimable milestones to the claimed ones. -/
theorem worth_claimed_afterClaim {amount : Int} :
    (ms.afterClaim amount).worth (·.claimed) = ms.worth (·.claimed) + ms.worth (·.claimable) := by
  have hshare : (ms.afterClaim amount).share = ms.share := rfl
  unfold worth
  rw [hshare]
  simp only [afterClaim]
  induction ms.milestones with
  | nil => simp
  | cons m l ih =>
      cases hc : m.claimed <;> cases hf : m.isFulfilled <;>
        simp [MilestoneEntry.claimable, hc, hf, share] at ih ⊢ <;> omega

theorem bps_afterClaim {amount : Int} :
    (ms.afterClaim amount).milestones.map (·.bps) = ms.milestones.map (·.bps) := by
  have hbps : ((fun m : MilestoneEntry => m.bps) ∘ fun m : MilestoneEntry =>
      if m.claimable = true then { m with claimed := true } else m) = (·.bps) := by
    funext m
    dsimp only [Function.comp_apply]
    split <;> rfl
  rw [afterClaim, List.map_map, hbps]

theorem Sound.afterClaim (h : ms.Sound) : (ms.afterClaim ms.due).Sound where
  total := h.total
  bps := by
    rw [bps_afterClaim]
    exact h.bps
  claimed := by
    intro hlast
    rw [worth_claimed_afterClaim]
    have hopen : ∀ m ∈ ms.milestones.getLast?, m.claimed = false ∧ m.claimable = false := by
      intro m hm
      rw [Option.mem_def] at hm
      have hafter := hlast
      simp only [MilestoneVestingSchedule.afterClaim, List.getLast?_map, hm, Option.map_some,
        Option.mem_def, Option.some.injEq, forall_eq'] at hafter
      by_cases hc : m.claimable = true
      · simp [hc] at hafter
      · simpa [hc] using hafter
    have hdue : ms.due = ms.worth (·.claimable) := by
      refine if_neg fun hc => ?_
      cases hm : ms.milestones.getLast? with
      | none => simp [lastClaimable, hm] at hc
      | some m => simp [lastClaimable, hm, (hopen m hm).2] at hc
    have := h.claimed fun m hm => (hopen m hm).1
    simp only [MilestoneVestingSchedule.afterClaim, hdue]
    omega

end MilestoneVestingSchedule

end Sound

/-! ## Updates of milestones -/

/-- What progress reports and adjustments leave alone in a milestone. -/
def MilestoneEntry.terms (m : MilestoneEntry) : Nat × Bool := (m.bps, m.claimed)

section Updates

variable {e : Env} {s : State} {α : Type} {as : List α} {l : List MilestoneEntry}
  {index : α → Nat} {f : α → MilestoneEntry → MilestoneEntry}

@[simp ↓] theorem wp_updateMilestone {i : Nat} {f : MilestoneEntry → MilestoneEntry}
    {Q : List MilestoneEntry → State → Prop} :
    wp (updateMilestone l i f) Q e s ↔
      ∀ m, l[i]? = some m → m.isFulfilled = false → Q (l.set i (f m)) s := by
  simp [updateMilestone]

/-- `m'` is `m` after the updates `as`, each of which found it unfulfilled. -/
def MilestoneEntry.Updated (f : α → MilestoneEntry → MilestoneEntry) :
    List α → MilestoneEntry → MilestoneEntry → Prop
  | [], m, m' => m' = m
  | a :: as, m, m' => m.isFulfilled = false ∧ Updated f as (f a m) m'

/-- The list `l'` is `l` with each milestone updated by the members of `as` that name it. -/
structure Updates (index : α → Nat) (f : α → MilestoneEntry → MilestoneEntry) (as : List α)
    (l l' : List MilestoneEntry) : Prop where
  length : l'.length = l.length
  defined : ∀ a ∈ as, index a < l.length
  entry : ∀ (i : Nat) (m : MilestoneEntry), l[i]? = some m →
    ∃ m', l'[i]? = some m' ∧ m.Updated f (as.filter fun a => index a = i) m'

/-- The loop of updates, milestone by milestone. -/
theorem updateMilestones_spec :
    wp (foldEach as l fun l a => updateMilestone l (index a) (f a))
      (fun l' t => t = s ∧ Updates index f as l l') e s := by
  induction as generalizing l with
  | nil =>
      simp only [foldEach, Tx.wp_pure]
      exact ⟨trivial, rfl, by simp, fun _ m hm => ⟨m, hm, rfl⟩⟩
  | cons a as ih =>
      simp only [foldEach, Tx.wp_bind, wp_updateMilestone]
      intro m₀ hm₀ hopen
      refine Tx.wp_mono ih ?_
      rintro l' t ⟨rfl, hrest⟩
      have hlt : index a < l.length := (List.getElem?_eq_some_iff.mp hm₀).1
      refine ⟨rfl, hrest.length.trans (by simp), ?_, fun i m hm => ?_⟩
      · simpa [hlt] using hrest.defined
      by_cases hi : index a = i
      · -- this update comes first, the others work on its result
        obtain rfl : m₀ = m := by simpa [← hi, hm₀] using hm
        obtain ⟨m', hm', hupd⟩ := hrest.entry i (f a m₀) (by simp [← hi, hlt])
        exact ⟨m', hm', by simpa [hi] using ⟨hopen, hupd⟩⟩
      · obtain ⟨m', hm', hupd⟩ := hrest.entry i m (by simpa [List.getElem?_set, hi] using hm)
        exact ⟨m', hm', by simpa [hi] using hupd⟩

theorem MilestoneEntry.Updated.keeps {β : Type} {g : MilestoneEntry → β} {m m' : MilestoneEntry}
    (h : m.Updated f as m') (hg : ∀ a m, g (f a m) = g m) : g m' = g m := by
  induction as generalizing m with
  | nil => exact congrArg g h
  | cons a as ih => exact (ih h.2).trans (hg a m)

/-- A fulfilled milestone is not updated any more. -/
theorem MilestoneEntry.Updated.eq_of_fulfilled {m m' : MilestoneEntry} (h : m.Updated f as m')
    (hm : m.isFulfilled = true) : m' = m := by
  cases as with
  | nil => exact h
  | cons a as => exact absurd h.1 (by simp [hm])

/-- Updates that do not touch `claimed` clear no flag. -/
theorem Updates.flags {l' : List MilestoneEntry} {i : Nat} {m : MilestoneEntry}
    (h : Updates index f as l l') (hf : ∀ a m, (f a m).claimed = m.claimed)
    (hm : l[i]? = some m) :
    ∃ m', l'[i]? = some m' ∧ (m.isFulfilled = true → m'.isFulfilled = true) ∧
      (m.claimed = true → m'.claimed = true) := by
  obtain ⟨m', hm', hentry⟩ := h.entry i m hm
  refine ⟨m', hm', fun hful => ?_, fun hclaimed => ?_⟩
  · rwa [hentry.eq_of_fulfilled hful]
  · exact (hentry.keeps hf).trans hclaimed

theorem Updates.map_eq {β : Type} {l' : List MilestoneEntry} {g : MilestoneEntry → β}
    (h : Updates index f as l l') (hg : ∀ a m, g (f a m) = g m) : l'.map g = l.map g := by
  refine List.ext_getElem? fun i => ?_
  rw [List.getElem?_map, List.getElem?_map]
  cases hi : l[i]? with
  | none =>
      have hnone : l'[i]? = none := by
        rw [List.getElem?_eq_none_iff] at hi ⊢
        exact h.length ▸ hi
      rw [hnone]
  | some m =>
      obtain ⟨m', hm', hupd⟩ := h.entry i m hi
      simp [hm', hupd.keeps hg]

namespace MilestoneVestingSchedule

variable {ms : MilestoneVestingSchedule}

theorem worth_claimed_eq : ms.worth (·.claimed) = (((ms.milestones.map (·.terms)).filter
    (·.2)).map fun x => Split.part ms.totalAmount 10000 x.1).sum := by
  rw [List.filter_map, List.map_map]
  rfl

theorem Sound.congr (h : ms.Sound) (hl : l.map (·.terms) = ms.milestones.map (·.terms)) :
    ({ ms with milestones := l } : MilestoneVestingSchedule).Sound where
  total := h.total
  bps := by
    have hbps := congrArg (List.map Prod.fst) hl
    simp only [List.map_map] at hbps
    exact (congrArg List.sum hbps).trans h.bps
  claimed := by
    intro hlast
    have hworth : ({ ms with milestones := l } : MilestoneVestingSchedule).worth (·.claimed) =
        ms.worth (·.claimed) := by
      rw [worth_claimed_eq, worth_claimed_eq]
      exact congrArg _ (by rw [hl])
    rw [hworth]
    refine h.claimed fun m hm => ?_
    have hget := congrArg List.getLast? hl
    simp only [List.getLast?_map] at hget
    rw [Option.mem_def.mp hm] at hget
    obtain ⟨m', hm', hterms⟩ := Option.map_eq_some_iff.mp hget
    exact (congrArg Prod.snd hterms).symm.trans (hlast m' hm')

end MilestoneVestingSchedule

end Updates

end Heirloom
