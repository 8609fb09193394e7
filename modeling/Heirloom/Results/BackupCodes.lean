import Heirloom.System
import Mathlib.Data.List.Nodup

/-!
# Backup codes

A backup code works once, and a new generation of codes replaces the old one.
The codes are numbered from `vault_id * timestamp` on, modulo 2^64, so this holds
(`codes_used_once`) as long as the numbers of the generations of a vault stay ten
apart. The code says that codes are distinct even if they are generated again at
the same time; they are the same ones then, and a used code works again
(`code_used_twice`).
-/

namespace Heirloom

open Transaction Runs

/-! ## Codes and generations -/

/-- The codes generated at `now`. -/
def codesAt (id now : Nat) : List String := (backupCodesAt id now).map (·.code)

/-- The codes of vault `id` that are stored. -/
def State.codes (s : State) (id : Nat) : List BackupCode := (s.get (.backupCodes id)).getD []

/-- The time of a call that generates codes for vault `id`. -/
def Event.generates (id : Nat) : Event → Option Nat
  | .call e (.passkey (.generateBackupCodes i _)) => if i = id then some e.timestamp else none
  | _ => none

/-- The code that a call uses for vault `id`. -/
def Event.uses (id : Nat) : Event → Option String
  | .call _ (.passkey (.useBackupCode i code)) => if i = id then some code else none
  | _ => none

/-- The times at which codes were generated for vault `id`, newest first. -/
def generations (id : Nat) (ks : List Event) : List Nat := ks.filterMap (Event.generates id)

/-- The codes that were accepted for vault `id`, newest first. -/
def acceptedCodes (id : Nat) (ks : List Event) : List String := ks.filterMap (Event.uses id)

/-- The first code numbers of two generations are at least ten apart, either way round. -/
def Apart (id now then' : Nat) : Prop :=
  10 ≤ ((id * now : Nat) - (id * then' : Nat) : Int) % 2 ^ 64 ∧
    ((id * now : Nat) - (id * then' : Nat) : Int) % 2 ^ 64 ≤ 2 ^ 64 - 10

/-- Every generation of codes of vault `id` is apart from all earlier ones, so that no code of an
earlier generation comes again in it. -/
def SpacedGenerations (id : Nat) (ks : List Event) : Prop := (generations id ks).Pairwise (Apart id)

section Codes

variable {e : Env} {s t : State} {id now then' : Nat} {code : String} {c : Call} {ks : List Event}
  {cs : List BackupCode}

/-! ## Which codes are equal -/

theorem toString_inj {m n : Nat} (h : toString m = toString n) : m = n := by
  have hdigits : Nat.toDigits 10 m = Nat.toDigits 10 n := by
    rw [← Nat.toList_repr, ← Nat.toList_repr]
    exact congrArg String.toList h
  rw [← Nat.ofDigitChars_ten_toDigits (n := m), hdigits, Nat.ofDigitChars_ten_toDigits]

theorem mem_codesAt : code ∈ codesAt id now ↔
    ∃ i < 10, code = "code" ++ toString ((id * now % 2 ^ 64 + i) % 2 ^ 64) := by
  simp [codesAt, backupCodesAt, eq_comm]

theorem code_inj {m n : Nat} (h : "code" ++ toString m = "code" ++ toString n) : m = n :=
  toString_inj (by simpa using h)

/-- The codes of one generation are all different. -/
theorem codesAt_nodup : (codesAt id now).Nodup := by
  have hmap : codesAt id now = (List.range 10).map fun i =>
      "code" ++ toString ((id * now % 2 ^ 64 + i) % 2 ^ 64) := by
    simp [codesAt, backupCodesAt]
  rw [hmap]
  refine List.Nodup.map_on (fun i hi j hj hij => ?_) List.nodup_range
  have hnumber := code_inj hij
  simp only [List.mem_range] at hi hj
  omega

/-- Generations that are apart have no code in common. -/
theorem codesAt_disjoint (h : Apart id now then') (hcode : code ∈ codesAt id now) :
    code ∉ codesAt id then' := by
  intro hcode'
  obtain ⟨i, hi, rfl⟩ := mem_codesAt.mp hcode
  obtain ⟨j, hj, hij⟩ := mem_codesAt.mp hcode'
  have hnumber := code_inj hij
  unfold Apart at h
  omega

/-! ## What the calls do to the codes -/

theorem map_markCodeUsed : (markCodeUsed code cs).map (·.code) = cs.map (·.code) := by
  induction cs with
  | nil => rfl
  | cons c cs ih =>
      simp only [markCodeUsed]
      split
      · simp
      · simp [ih]

/-- Of different codes, the one that is marked is used afterwards and the others are as
they were. -/
theorem mem_markCodeUsed (hnodup : (cs.map (·.code)).Nodup) {c : BackupCode}
    (hc : c ∈ markCodeUsed code cs) : (c.code = code ∧ c.used = true) ∨ (c.code ≠ code ∧ c ∈ cs) := by
  induction cs with
  | nil => simp [markCodeUsed] at hc
  | cons d ds ih =>
      obtain ⟨hd, hds⟩ := List.nodup_cons.mp hnodup
      simp only [markCodeUsed] at hc
      split at hc
      · next heq =>
          obtain rfl | hc := List.mem_cons.mp hc
          · exact .inl ⟨heq, rfl⟩
          · exact .inr ⟨fun he => hd (List.mem_map.mpr ⟨c, hc, he.trans heq.symm⟩), .tail _ hc⟩
      · next hne =>
          obtain rfl | hc := List.mem_cons.mp hc
          · exact .inr ⟨hne, .head _⟩
          · exact (ih hds hc).imp_right fun h => ⟨h.1, .tail _ h.2⟩

theorem generateBackupCodes_codes {a : Address} :
    wp (generateBackupCodes id a) (fun _ t => (∃ v, s.vault id = some v) ∧
      t.codes id = backupCodesAt id e.timestamp) e s := by
  simp [generateBackupCodes, State.codes]
  exact fun _ v hv _ _ => ⟨v, hv⟩

theorem useBackupCode_codes :
    wp (useBackupCode id code) (fun _ t => (∃ c ∈ s.codes id, c.code = code ∧ c.used = false) ∧
      t.codes id = markCodeUsed code (s.codes id)) e s := by
  simp [useBackupCode, State.codes]
  intro v _ _ cs hcs c hc hunused
  exact ⟨⟨c, by simpa [hcs] using List.mem_of_find?_eq_some hc,
    by simpa using List.find?_some hc, hunused⟩, by simp [hcs]⟩

theorem createVault_codes {o b : Address} {i : Nat} {token : Option Address} :
    wp (createVault o b i token) (fun _ t => t.codes (s.count + 1) = []) e s := by
  simp [createVault, resolveVaultToken, nextVaultId, storeNewVault, addOwnerVaultId,
    addBeneficiaryVaultId, State.codes]

/-- The calls that write backup codes. -/
theorem Call.codes_writer (h : .codes ∈ (c.footprint s).areas) : c.Creating ∨
    (∃ i a, c = .passkey (.generateBackupCodes i a)) ∨
    ∃ i code, c = .passkey (.useBackupCode i code) := by
  cases c with
  | vault c =>
      cases c <;> first
        | exact .inl trivial
        | simp [Call.footprint, VaultCall.footprint] at h
  | passkey c => cases c <;> simp [Call.footprint, PasskeyCall.footprint] at h ⊢
  | _ => simpa [Call.areas] using Call.mem_areas h

/-- A creation leaves the codes of the vaults that are there alone. -/
theorem exec_codes_creating (hc : c.Creating) (hnum : s.Numbered) (hv : s.vault id ≠ none) :
    wp (exec c) (fun _ t => t.codes id = s.codes id) e s := by
  intro _ t hexec
  obtain ⟨v, hcreates⟩ := exec_creates hc _ _ hexec
  have hid : id ∉ s.creation.vaults := by
    rintro hmem
    obtain rfl : id = s.count + 1 := by simpa [State.creation] using hmem
    exact hv (hnum _ (Nat.lt_succ_self _))
  have hsame := (hcreates.frame hnum).get_of_vault (k := .backupCodes id) rfl hid
  rw [State.codes, hsame, State.codes]

/-- No other creation writes codes, and the codes of a new vault are none. -/
theorem exec_codes_created (hc : c.Creating) (hnum : s.Numbered) (hnone : s.codes id = []) :
    wp (exec c) (fun _ t => t.codes id = []) e s := by
  intro _ t hexec
  by_cases hid : id = s.count + 1
  swap
  · obtain ⟨v, hcreates⟩ := exec_creates hc _ _ hexec
    have hsame := (hcreates.frame hnum).get_of_vault (k := .backupCodes id) rfl
      (by simpa [State.creation] using hid)
    rw [State.codes, hsame]
    exact hnone
  subst hid
  cases c with
  | vault c =>
      cases c with
      | createVault o b i token =>
          obtain ⟨n, hn⟩ : ∃ n, createVault o b i token e s = .ok (n, t) := by
            simpa [exec, execVault] using hexec
          exact createVault_codes _ _ hn
      | createVaultFromInheritance p a b i token =>
          obtain ⟨n, hn⟩ : ∃ n, createVaultFromInheritance p a b i token e s = .ok (n, t) := by
            simpa [exec, execVault] using hexec
          have hkeep : wp (createVaultFromInheritance p a b i token) (fun _ t =>
              t.get (.backupCodes (s.count + 1)) = s.get (.backupCodes (s.count + 1))) e s := by
            simp [createVaultFromInheritance, resolveVaultToken, nextVaultId, storeNewVault,
              addOwnerVaultId, addBeneficiaryVaultId]
          rw [State.codes, hkeep _ _ hn]
          exact hnone
      | cloneVault source o b =>
          obtain ⟨n, hn⟩ : ∃ n, cloneVault source o b e s = .ok (n, t) := by
            simpa [exec, execVault] using hexec
          have hkeep : wp (cloneVault source o b) (fun _ t =>
              t.get (.backupCodes (s.count + 1)) = s.get (.backupCodes (s.count + 1))) e s := by
            simp [cloneVault, loadCloneSource, nextVaultId, storeNewVault, addOwnerVaultId,
              addBeneficiaryVaultId]
          rw [State.codes, hkeep _ _ hn]
          exact hnone
      | cloneVaultWithOverrides source o b i bs m =>
          obtain ⟨n, hn⟩ : ∃ n, cloneVaultWithOverrides source o b i bs m e s = .ok (n, t) := by
            simpa [exec, execVault] using hexec
          have hkeep : wp (cloneVaultWithOverrides source o b i bs m) (fun _ t =>
              t.get (.backupCodes (s.count + 1)) = s.get (.backupCodes (s.count + 1))) e s := by
            simp [cloneVaultWithOverrides, loadCloneSource, nextVaultId, storeNewVault,
              addOwnerVaultId, addBeneficiaryVaultId]
            intros
            exact wp_resolveBeneficiariesOverride fun _ _ => by simp
          rw [State.codes, hkeep _ _ hn]
          exact hnone
      | _ => exact hc.elim
  | _ => exact hc.elim

/-! ## The invariant -/

/-- The codes of the last generation. -/
def lastCodes (id : Nat) (ks : List Event) : List String :=
  ((generations id ks).head?.map (codesAt id)).getD []

/-- The stored codes are those of the last generation, and those that were accepted are
marked; no code was accepted twice. -/
structure CodesInv (id : Nat) (ks : List Event) (s : State) : Prop where
  vault : generations id ks ≠ [] → s.vault id ≠ none
  stored : (s.codes id).map (·.code) = lastCodes id ks
  marked : ∀ c ∈ s.codes id, c.code ∈ acceptedCodes id ks → c.used = true
  made : ∀ code ∈ acceptedCodes id ks, ∃ now ∈ generations id ks, code ∈ codesAt id now
  once : (acceptedCodes id ks).Nodup

theorem lastCodes_nodup : (lastCodes id ks).Nodup := by
  unfold lastCodes
  cases generations id ks with
  | nil => simp
  | cons now rest => simpa using codesAt_nodup

/-- A call that writes no codes of vault `id` does not count. -/
theorem generates_of_frame (h : .codes ∉ (c.footprint s).areas ∨ id ∉ (c.footprint s).vaults) :
    Event.generates id (.call e c) = none ∧ Event.uses id (.call e c) = none := by
  constructor
  · unfold Event.generates
    split
    · next heq =>
        obtain ⟨rfl, rfl⟩ := Event.call.inj heq
        refine if_neg fun hi => ?_
        simp [Call.footprint, PasskeyCall.footprint, hi] at h
    · rfl
  · unfold Event.uses
    split
    · next heq =>
        obtain ⟨rfl, rfl⟩ := Event.call.inj heq
        refine if_neg fun hi => ?_
        simp [Call.footprint, PasskeyCall.footprint, hi] at h
    · rfl

theorem generates_of_creating (h : c.Creating) :
    Event.generates id (.call e c) = none ∧ Event.uses id (.call e c) = none := by
  cases c with
  | vault c => exact ⟨rfl, rfl⟩
  | _ => exact h.elim

namespace CodesInv

/-- A call that leaves the codes alone. -/
theorem quiet {k : Event} (h : CodesInv id ks s) (hk : k.generates id = none ∧ k.uses id = none)
    (hcodes : t.codes id = s.codes id) (hvault : s.vault id ≠ none → t.vault id ≠ none) :
    CodesInv id (k :: ks) t := by
  have hgen : generations id (k :: ks) = generations id ks := by simp [generations, hk.1]
  have hacc : acceptedCodes id (k :: ks) = acceptedCodes id ks := by simp [acceptedCodes, hk.2]
  refine ⟨?_, ?_, ?_, ?_, ?_⟩
  · rw [hgen]
    exact fun hne => hvault (h.vault hne)
  · rw [hcodes, lastCodes, hgen]
    exact h.stored
  · rw [hcodes, hacc]
    exact h.marked
  · rw [hgen, hacc]
    exact h.made
  · rw [hacc]
    exact h.once

/-- A new generation that is apart from the old ones. -/
theorem generate {a : Address} (h : CodesInv id ks s)
    (hspaced : SpacedGenerations id (.call e (.passkey (.generateBackupCodes id a)) :: ks))
    (hcodes : t.codes id = backupCodesAt id e.timestamp) (hvault : t.vault id ≠ none) :
    CodesInv id (.call e (.passkey (.generateBackupCodes id a)) :: ks) t := by
  have hgen : generations id (.call e (.passkey (.generateBackupCodes id a)) :: ks) =
      e.timestamp :: generations id ks := by simp [generations, Event.generates]
  have hacc : acceptedCodes id (.call e (.passkey (.generateBackupCodes id a)) :: ks) =
      acceptedCodes id ks := List.filterMap_cons_none rfl
  rw [SpacedGenerations, hgen, List.pairwise_cons] at hspaced
  refine ⟨fun _ => hvault, ?_, ?_, ?_, ?_⟩
  · rw [hcodes, lastCodes, hgen]
    rfl
  · rw [hcodes, hacc]
    intro c hc hused
    -- a code that was accepted before belongs to an earlier generation
    obtain ⟨now, hnow, hcode⟩ := h.made c.code hused
    have hfresh : c.code ∈ codesAt id e.timestamp := List.mem_map_of_mem hc
    exact absurd hcode (codesAt_disjoint (hspaced.1 now hnow) hfresh)
  · rw [hgen, hacc]
    intro code hcode
    obtain ⟨now, hnow, hmade⟩ := h.made code hcode
    exact ⟨now, .tail _ hnow, hmade⟩
  · rw [hacc]
    exact h.once

/-- A code is used that has not been used before. -/
theorem use (h : CodesInv id ks s)
    (hfound : ∃ c ∈ s.codes id, c.code = code ∧ c.used = false)
    (hcodes : t.codes id = markCodeUsed code (s.codes id))
    (hvault : s.vault id ≠ none → t.vault id ≠ none) :
    CodesInv id (.call e (.passkey (.useBackupCode id code)) :: ks) t := by
  have hgen : generations id (.call e (.passkey (.useBackupCode id code)) :: ks) =
      generations id ks := List.filterMap_cons_none rfl
  have hacc : acceptedCodes id (.call e (.passkey (.useBackupCode id code)) :: ks) =
      code :: acceptedCodes id ks := by simp [acceptedCodes, Event.uses]
  have hnodup : ((s.codes id).map (·.code)).Nodup := h.stored ▸ lastCodes_nodup
  refine ⟨?_, ?_, ?_, ?_, ?_⟩
  · rw [hgen]
    exact fun hne => hvault (h.vault hne)
  · rw [hcodes, map_markCodeUsed, lastCodes, hgen]
    exact h.stored
  · rw [hcodes, hacc]
    intro c hc hmem
    obtain ⟨-, hused⟩ | ⟨hne, hc⟩ := mem_markCodeUsed hnodup hc
    · exact hused
    · exact h.marked c hc ((List.mem_cons.mp hmem).resolve_left hne)
  · rw [hgen, hacc]
    intro code' hmem
    obtain rfl | hmem := List.mem_cons.mp hmem
    · obtain ⟨c, hc, rfl, -⟩ := hfound
      have hlast : c.code ∈ lastCodes id ks := h.stored ▸ List.mem_map_of_mem hc
      unfold lastCodes at hlast
      cases hg : generations id ks with
      | nil => simp [hg] at hlast
      | cons now rest => exact ⟨now, .head _, by simpa [hg] using hlast⟩
    · exact h.made code' hmem
  · rw [hacc]
    refine List.nodup_cons.mpr ⟨fun hmem => ?_, h.once⟩
    obtain ⟨c, hc, rfl, hunused⟩ := hfound
    simp [h.marked c hc hmem] at hunused

end CodesInv

/-- One call keeps the invariant. -/
theorem codes_call (h : CodesInv id ks s) (hnum : s.Numbered)
    (hspaced : SpacedGenerations id (.call e c :: ks)) (hexec : exec c e s = .ok ((), t)) :
    CodesInv id (.call e c :: ks) t := by
  have hframe : Frame (c.footprint s) s t := exec_frame c hnum _ _ hexec
  have hvault : s.vault id ≠ none → t.vault id ≠ none := by
    intro hv
    obtain ⟨v, hv⟩ := Option.ne_none_iff_exists'.mp hv
    obtain ⟨w, hw, -⟩ := hframe.kept id v hv
    simp [hw]
  by_cases hwrite : .codes ∈ (c.footprint s).areas ∧ id ∈ (c.footprint s).vaults
  swap
  · have hout : .codes ∉ (c.footprint s).areas ∨ id ∉ (c.footprint s).vaults := by
      by_contra hboth
      exact hwrite ⟨not_not.mp fun h => hboth (.inl h), not_not.mp fun h => hboth (.inr h)⟩
    refine h.quiet (generates_of_frame hout) ?_ hvault
    have hsame : t.get (.backupCodes id) = s.get (.backupCodes id) :=
      hout.elim (fun harea => hframe.get_of_area (by simpa using harea))
        fun hid => hframe.get_of_vault rfl hid
    rw [State.codes, hsame, State.codes]
  · obtain ⟨harea, hid⟩ := hwrite
    obtain hc | ⟨i, a, rfl⟩ | ⟨i, code, rfl⟩ := Call.codes_writer harea
    · by_cases hv : s.vault id = none
      · have hgen : generations id ks = [] := not_not.mp fun hne => h.vault hne hv
        have hnone : s.codes id = [] := by simpa [lastCodes, hgen] using h.stored
        exact h.quiet (generates_of_creating hc)
          ((exec_codes_created hc hnum hnone _ _ hexec).trans hnone.symm) hvault
      · exact h.quiet (generates_of_creating hc) (exec_codes_creating hc hnum hv _ _ hexec) hvault
    · obtain rfl : i = id := by
        simpa [Call.footprint, PasskeyCall.footprint, eq_comm] using hid
      obtain ⟨⟨v, hv⟩, hcodes⟩ := generateBackupCodes_codes _ _ hexec
      exact h.generate hspaced hcodes (hvault (by simp [hv]))
    · obtain rfl : i = id := by
        simpa [Call.footprint, PasskeyCall.footprint, eq_comm] using hid
      obtain ⟨hfound, hcodes⟩ := useBackupCode_codes _ _ hexec
      exact h.use hfound hcodes hvault

end Codes

/-- In every run in which the generations of codes of vault `id` are apart, no code is
accepted twice, and the codes of every generation but the last are refused. -/
theorem codes_used_once {w₀ w : World} {ks : List Event} (h₀ : Genesis w₀)
    (hrun : Run Step w₀ ks w) (id : Nat) (hspaced : SpacedGenerations id ks) :
    (acceptedCodes id ks).Nodup ∧
    ∀ now ∈ (generations id ks).tail, ∀ code ∈ codesAt id now, ∀ e t,
      useBackupCode id code e w.state ≠ .ok ((), t) := by
  have hinv : CodesInv id ks w.state := by
    refine history_of_run (I := fun ks w => SpacedGenerations id ks → CodesInv id ks w.state) h₀
      hrun ?_ (fun hnum hI _ hexec hspaced => ?_) (fun l hI hspaced => ?_) hspaced
    · intro _
      have hnone : w₀.state.codes id = [] := by
        simp [State.codes, h₀.get (k := .backupCodes id) (by simp)]
      exact ⟨by simp [generations], by simp [hnone, lastCodes, generations], by simp [hnone],
        by simp [acceptedCodes], by simp [acceptedCodes]⟩
    · refine codes_call (hI ?_) hnum hspaced hexec
      exact List.Pairwise.sublist (List.Sublist.filterMap _ (List.sublist_cons_self _ _)) hspaced
    · have hspaced' := List.Pairwise.sublist
        (List.Sublist.filterMap _ (List.sublist_cons_self _ _)) hspaced
      exact (hI hspaced').quiet ⟨rfl, rfl⟩ rfl fun hv => hv
  refine ⟨hinv.once, fun now hnow code hcode e t hexec => ?_⟩
  obtain ⟨⟨c, hc, rfl, -⟩, -⟩ := useBackupCode_codes _ _ hexec
  have hlast : c.code ∈ lastCodes id ks := hinv.stored ▸ List.mem_map_of_mem hc
  unfold lastCodes at hlast
  unfold SpacedGenerations at hspaced
  cases hg : generations id ks with
  | nil => simp [hg] at hnow
  | cons last rest =>
      rw [hg] at hspaced hnow hlast
      exact codesAt_disjoint ((List.pairwise_cons.mp hspaced).1 now hnow) hlast hcode

/-- After a new generation a code of the old one is refused. -/
theorem codes_used_once_replaced : ∃ w : World, Reachable w ∧
    ∀ e t, useBackupCode 1 "code101" e w.state ≠ .ok ((), t) := by
  have hplay : (play (initialised ⟨8⟩ ⟨9⟩)
      [opensVault 1000,
        (signedBy [⟨1⟩] 100, .passkey (.generateBackupCodes 1 ⟨1⟩)),
        (signedBy [] 100, .passkey (.useBackupCode 1 "code100")),
        (signedBy [⟨1⟩] 200, .passkey (.generateBackupCodes 1 ⟨1⟩))]).isSome = true := by
    decide +kernel
  obtain ⟨w, hw⟩ := Option.isSome_iff_exists.mp hplay
  have hspaced : List.Pairwise (Apart 1) [200, 100] := by simp [Apart]
  have hused := codes_used_once (genesis_initialised (by decide) (by decide)) (run_of_play hw) 1
    hspaced
  have hold : 100 ∈ ([200, 100] : List Nat).tail := by decide
  exact ⟨w, reachable_of_play hw, hused.2 100 hold "code101" (by decide)⟩

/-- The owner generates codes twice at the same time; a code that was used works again. -/
theorem code_used_twice : ¬ ∀ (w₀ w : World) (ks : List Event) (id : Nat), Genesis w₀ →
    Run Step w₀ ks w → (acceptedCodes id ks).Nodup ∧
      ∀ now ∈ (generations id ks).tail, ∀ code ∈ codesAt id now, ∀ e t,
        useBackupCode id code e w.state ≠ .ok ((), t) := by
  have hplay : (play (initialised ⟨8⟩ ⟨9⟩)
      [opensVault 1000,
        (signedBy [⟨1⟩] 100, .passkey (.generateBackupCodes 1 ⟨1⟩)),
        (signedBy [] 100, .passkey (.useBackupCode 1 "code100")),
        (signedBy [⟨1⟩] 100, .passkey (.generateBackupCodes 1 ⟨1⟩)),
        (signedBy [] 100, .passkey (.useBackupCode 1 "code100"))]).isSome = true := by
    decide +kernel
  obtain ⟨w, hw⟩ := Option.isSome_iff_exists.mp hplay
  intro h
  have hnodup := (h _ w _ 1 (genesis_initialised (by decide) (by decide)) (run_of_play hw)).1
  simp [acceptedCodes, eventsOf, Event.uses] at hnodup

end Heirloom
