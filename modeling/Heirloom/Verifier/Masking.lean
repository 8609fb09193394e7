import Heirloom.Verifier.System
import Mathlib.Data.Nat.Bitwise

/-!
# Masked proofs

`mask_proof_fields` returns a header, a bit mask of the offsets and the proof with the bytes at
those offsets set to zero. It reads the mask by shifting a `u32` by the index of each byte of the
proof, listed or not, and the checked shift fails from 32 on: the masking that the function
describes is there for the proofs of at most 32 bytes and for no others (`masks_exactly_iff`).
-/

namespace Heirloom.Verifier

open Transaction TypedStore

section Masks

variable {e : Env} {s t : State} {proof other out : Bytes} {fields : List Nat} {mask i : Nat}

/-! ## What masking is for -/

/-- The proof with the bytes at the listed offsets replaced by zero. -/
def hidden (fields : List Nat) (proof : Bytes) : Bytes :=
  proof.mapIdx fun i byte => if i ∈ fields then 0 else byte

/-- The bits of the mask are the listed offsets. -/
def IsMaskOf (fields : List Nat) (mask : Nat) : Prop := ∀ i, mask.testBit i = true ↔ i ∈ fields

/-- The two proofs differ at most at the listed offsets. -/
def AgreeOff (fields : List Nat) (proof other : Bytes) : Prop :=
  proof.length = other.length ∧ ∀ i, i ∉ fields → proof[i]? = other[i]?

/-- The call returns the header, the mask and the proof without the listed bytes, and so the same
for every proof that differs only there. -/
def MasksExactly (proof : Bytes) (fields : List Nat) (e : Env) (s : State) : Prop :=
  ∃ mask, IsMaskOf fields mask ∧
    ∀ other, AgreeOff fields proof other → ∃ t,
      maskProofFields other fields e s =
        .ok (maskedHeader ++ toLeBytes mask ++ hidden fields proof, t)

theorem agreeOff_refl : AgreeOff fields proof proof := ⟨rfl, fun _ _ => rfl⟩

theorem hidden_congr (h : AgreeOff fields proof other) :
    hidden fields other = hidden fields proof := by
  refine List.ext_getElem (by simp [hidden, h.1]) fun i hi hi' => ?_
  simp only [hidden, List.getElem_mapIdx]
  split
  · rfl
  · have hsame := h.2 i ‹_›
    simp only [hidden, List.length_mapIdx] at hi hi'
    rw [List.getElem?_eq_getElem hi', List.getElem?_eq_getElem hi] at hsame
    exact (Option.some.inj hsame).symm

/-! ## What the code computes -/

/-- The mask that the first loop builds. -/
def fieldMask (fields : List Nat) : Nat := fields.foldl (fun mask field => mask ||| 2 ^ field) 0

theorem testBit_foldl (mask : Nat) :
    (fields.foldl (fun mask field => mask ||| 2 ^ field) mask).testBit i = true ↔
      mask.testBit i = true ∨ i ∈ fields := by
  induction fields generalizing mask with
  | nil => simp
  | cons field fields ih =>
      rw [List.foldl_cons, ih, Nat.testBit_or, Nat.testBit_two_pow, Bool.or_eq_true,
        decide_eq_true_eq, List.mem_cons, or_assoc, eq_comm (a := field)]

theorem isMaskOf_fieldMask : IsMaskOf fields (fieldMask fields) := by
  intro i
  rw [fieldMask, testBit_foldl, Nat.zero_testBit]
  simp

/-- The second loop succeeds for the proofs of at most 32 bytes. -/
theorem ok_maskBytes : maskBytes proof (fieldMask fields) e s = .ok (out, t) ↔
    proof.length ≤ 32 ∧ out = hidden fields proof ∧ s = t := by
  have hround : ∀ (masked : Bytes) (i : Nat) (out : Bytes) (t : State),
      (do
        ensure (i < 32) .trap
        return masked ++ [if (fieldMask fields).testBit i then 0 else proof.getD i 0] :
          Contract Bytes) e s = .ok (out, t) ↔
        i < 32 ∧ out = masked ++ [if (fieldMask fields).testBit i then 0 else proof.getD i 0] ∧
          s = t := by
    intro masked i out t
    simp only [Tx.ok_bind, Tx.ok_ensure, Tx.ok_pure]
    constructor
    · rintro ⟨_, _, ⟨hi, rfl⟩, rfl, rfl⟩
      exact ⟨hi, rfl, rfl⟩
    · rintro ⟨hi, rfl, rfl⟩
      exact ⟨(), s, ⟨hi, rfl⟩, rfl, rfl⟩
  have hbody : (List.range proof.length).foldl (fun masked i =>
      masked ++ [if (fieldMask fields).testBit i then 0 else proof.getD i 0]) [] =
        hidden fields proof := by
    rw [List.foldl_append_eq_append, List.nil_append, ← List.flatMap_def, ← List.map_eq_flatMap]
    refine List.ext_getElem (by simp [hidden]) fun i hi hi' => ?_
    have hin : i < proof.length := by simpa using hi
    simp only [List.getElem_map, List.getElem_range, hidden, List.getElem_mapIdx,
      isMaskOf_fieldMask i, List.getD_eq_getElem?_getD, List.getElem?_eq_getElem hin,
      Option.getD_some]
  rw [maskBytes, Tx.ok_foldEach_foldl hround, hbody]
  refine and_congr_left fun _ => ⟨fun h => ?_, fun h i hi => ?_⟩
  · refine Nat.le_of_not_lt fun hlong => ?_
    exact Nat.lt_irrefl 32 (h 32 (List.mem_range.mpr hlong))
  · exact Nat.lt_of_lt_of_le (List.mem_range.mp hi) h

/-- A masked proof is at most 32 bytes and every offset is one of them. -/
theorem ok_maskProofFields : maskProofFields proof fields e s = .ok (out, t) ↔
    (proof ≠ [] ∧ fields ≠ [] ∧ (∀ field ∈ fields, field < 32 ∧ field < proof.length)) ∧
      proof.length ≤ 32 ∧
      out = maskedHeader ++ toLeBytes (fieldMask fields) ++ hidden fields proof ∧
      s.put (.maskingConfig (e.sha256 proof))
        ⟨e.sha256 (toLeBytes (fieldMask fields)), 1⟩ = t := by
  have hround : ∀ (mask field mask' : Nat) (t : State),
      (do
        require (field < 32 ∧ field < proof.length) .invalidMaskSpec
        return mask ||| 2 ^ field : Contract Nat) e s = .ok (mask', t) ↔
        (field < 32 ∧ field < proof.length) ∧ mask' = mask ||| 2 ^ field ∧ s = t := by
    intro mask field mask' t
    simp only [Tx.ok_bind, ok_require, Tx.ok_pure]
    constructor
    · rintro ⟨_, _, ⟨hfield, rfl⟩, rfl, rfl⟩
      exact ⟨hfield, rfl, rfl⟩
    · rintro ⟨hfield, rfl, rfl⟩
      exact ⟨(), s, ⟨hfield, rfl⟩, rfl, rfl⟩
  simp only [maskProofFields, Tx.ok_bind, ok_require, ok_sha256, ok_save, Tx.ok_pure]
  constructor
  · rintro ⟨_, _, ⟨hproof, rfl⟩, _, _, ⟨-, rfl⟩, _, _, ⟨hfields, rfl⟩, h⟩
    obtain ⟨mask, _, hmask, body, _, hbody, h⟩ := h
    obtain ⟨hoffsets, rfl, rfl⟩ := (Tx.ok_foldEach_foldl hround).mp hmask
    obtain ⟨hshort, rfl, rfl⟩ := ok_maskBytes.mp hbody
    obtain ⟨_, _, ⟨-, rfl⟩, _, _, ⟨rfl, rfl⟩, _, _, ⟨rfl, rfl⟩, _, _, hsave, hout, ht⟩ := h
    exact ⟨⟨hproof, hfields, hoffsets⟩, hshort, hout.symm, hsave.trans ht⟩
  · rintro ⟨⟨hproof, hfields, hoffsets⟩, hshort, rfl, rfl⟩
    have hsize : proof.length ≤ maxProofSize := hshort.trans (by decide)
    have hformat : (maskedHeader ++ toLeBytes (fieldMask fields) ++ hidden fields proof).length ≤
        maxExternalFormatSize := by
      simp only [List.length_append, hidden, List.length_mapIdx, maskedHeader, toLeBytes,
        List.length_cons, List.length_nil, maxExternalFormatSize]
      omega
    exact ⟨(), s, ⟨hproof, rfl⟩, (), s, ⟨hsize, rfl⟩, (), s, ⟨hfields, rfl⟩, _, s,
      (Tx.ok_foldEach_foldl hround).mpr ⟨hoffsets, rfl, rfl⟩, _, s,
      ok_maskBytes.mpr ⟨hshort, rfl, rfl⟩, (), s, ⟨hformat, rfl⟩, _, s, ⟨rfl, rfl⟩, _, s, ⟨rfl, rfl⟩, (), _, rfl, rfl, rfl⟩

/-! ## When the code masks -/

/-- For a proof and offsets that pass the checks, masking does what it is for if and only if the
proof has at most 32 bytes. -/
theorem masks_exactly_iff (e : Env) (s : State) (hproof : proof ≠ [])
    (hfields : fields ≠ []) (hoffsets : ∀ field ∈ fields, field < 32 ∧ field < proof.length) :
    MasksExactly proof fields e s ↔ proof.length ≤ 32 := by
  constructor
  · rintro ⟨mask, -, hmasked⟩
    obtain ⟨t, ht⟩ := hmasked proof agreeOff_refl
    exact (ok_maskProofFields.mp ht).2.1
  · intro hshort
    refine ⟨fieldMask fields, isMaskOf_fieldMask, fun other hother => ⟨s.put (.maskingConfig
      (e.sha256 other)) ⟨e.sha256 (toLeBytes (fieldMask fields)), 1⟩, ?_⟩⟩
    refine ok_maskProofFields.mpr ⟨⟨?_, hfields, hother.1 ▸ hoffsets⟩, hother.1 ▸ hshort, ?_, rfl⟩
    · exact fun hnil => hproof (List.length_eq_zero_iff.mp (by rw [hother.1, hnil]; rfl))
    · rw [hidden_congr hother]

/-- Two listed bytes of three are hidden. -/
theorem masks_exactly_three : MasksExactly [5, 6, 7] [2, 0, 2] (signedBy [] 1) Store.empty :=
  (masks_exactly_iff _ _ (by decide) (by decide) (by decide)).mpr (by decide)

/-- A proof of 33 bytes cannot be masked, not even at its first byte. -/
theorem long_proof_not_masked :
    (List.replicate 33 7 : Bytes).length ≤ maxProofSize ∧
      (∀ field ∈ [0], field < 32 ∧ field < (List.replicate 33 7 : Bytes).length) ∧
      ¬ MasksExactly (List.replicate 33 7) [0] (signedBy [] 1) Store.empty := by
  refine ⟨by decide, by decide, ?_⟩
  rintro ⟨mask, -, hmasked⟩
  obtain ⟨t, ht⟩ := hmasked _ agreeOff_refl
  exact absurd (ok_maskProofFields.mp ht).2.1 (by decide)

end Masks

end Heirloom.Verifier
