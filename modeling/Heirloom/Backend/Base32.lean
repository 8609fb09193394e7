import Heirloom.Backend.TwoFactor
import Heirloom.Lib.BitGroups

/-!
# The text of a secret

Both directions go through a buffer of 64 bits of which only the last few count: the encoder
never clears the others, and the decoder clears them only when a byte is complete.

* `base32Loop_eq`: the encoder cuts the bits of the bytes into groups of five, filled up at the
  end.
* `base32DecodeLoop_eq`: the decoder puts the bits of the letters together in whole bytes.
* `base32_exact`: a secret can be read back from its text, in any case and with white space
  anywhere, the text has the length and the letters it should have, and nothing else than a
  character outside the alphabet makes a text unreadable.
-/

namespace Heirloom.Backend.TwoFactor

open BitGroups

variable {buffer : UInt64} {n : Nat} {input : List UInt8} {cs : List Char}

/-! ## The buffer -/

theorem toNat_shift {w : Nat} (hw : w < 64) : (UInt64.ofNat w).toNat % 64 = w := by
  rw [UInt64.toNat_ofNat']
  omega

/-- Bits that are shifted in from the right come after those that are there. -/
theorem bits_shiftIn {k w : Nat} {x : UInt64} (hw : w < 64) (hx : x.toNat < 2 ^ w)
    (hk : k + w ≤ 64) :
    bits (k + w) (buffer <<< UInt64.ofNat w ||| x).toNat =
      bits k buffer.toNat ++ bits w x.toNat := by
  have hnat : (buffer <<< UInt64.ofNat w ||| x).toNat =
      buffer.toNat <<< w % 2 ^ 64 ||| x.toNat := by
    rw [UInt64.toNat_or, UInt64.toNat_shiftLeft, toNat_shift hw]
  rw [bits_add, hnat]
  congr 1
  · refine bits_congr fun i hi => ?_
    have hhigh : x.toNat.testBit (w + i) = false :=
      Nat.testBit_lt_two_pow
        (Nat.lt_of_lt_of_le hx (Nat.pow_le_pow_right (by decide) (Nat.le_add_right w i)))
    simp only [Nat.testBit_shiftRight, Nat.testBit_or, Nat.testBit_mod_two_pow,
      Nat.testBit_shiftLeft, hhigh, Bool.or_false, Nat.add_sub_cancel_left]
    simp
    omega
  · refine bits_congr fun i hi => ?_
    simp only [Nat.testBit_or, Nat.testBit_mod_two_pow, Nat.testBit_shiftLeft]
    simp
    omega

theorem toNat_shiftOut {w : Nat} (hw : w < 64) :
    (buffer >>> UInt64.ofNat w).toNat = buffer.toNat >>> w := by
  rw [UInt64.toNat_shiftRight, toNat_shift hw]

/-- Clearing the bits above does not change those below. -/
theorem bits_mask {w : Nat} (hw : w < 64) :
    bits w (buffer &&& (1 <<< UInt64.ofNat w) - 1).toNat = bits w buffer.toNat := by
  have hone : ((1 : UInt64) <<< UInt64.ofNat w).toNat = 2 ^ w := by
    have hlt : 2 ^ w < 2 ^ 64 := Nat.pow_lt_pow_right (by decide) hw
    rw [UInt64.toNat_shiftLeft, toNat_shift hw, UInt64.toNat_one, Nat.one_shiftLeft,
      Nat.mod_eq_of_lt hlt]
  have hmask : ((1 : UInt64) <<< UInt64.ofNat w - 1).toNat = 2 ^ w - 1 := by
    have hle : (1 : UInt64) ≤ 1 <<< UInt64.ofNat w := by
      rw [UInt64.le_iff_toNat_le, hone]
      exact Nat.one_le_two_pow
    rw [UInt64.toNat_sub_of_le _ _ hle, hone]
    rfl
  refine bits_congr fun i hi => ?_
  rw [UInt64.toNat_and, hmask, Nat.testBit_and, Nat.testBit_two_pow_sub_one, decide_eq_true hi,
    Bool.and_true]

/-! ## The encoder -/

/-- The letter of a group of five bits. -/
def letterOf (group : Nat) : Char := alphabet.getD group 'A'

theorem base32Letter_eq : base32Letter buffer = letterOf (value (bits 5 buffer.toNat)) := by
  unfold base32Letter letterOf
  rw [value_bits, UInt64.toNat_and]
  congr 1
  exact Nat.and_two_pow_sub_one_eq_mod buffer.toNat 5

theorem base32Letters_lt : (base32Letters buffer n).2 < 5 := by
  induction n using Nat.strongRecOn with
  | _ n ih =>
      unfold base32Letters
      split
      · exact ih _ (by omega)
      · rename_i hsmall
        have hne : ∀ k, n ≠ k + 5 := fun k hk => hsmall k hk
        exact Nat.lt_of_not_le fun hle => hne (n - 5) (by omega)

/-- The letters are those of the whole groups, and the bits of the others are left. -/
theorem base32Letters_eq (hn : n ≤ 64) (rest : List Bool) :
    (padded 5 (bits n buffer.toNat ++ rest)).map letterOf =
      (base32Letters buffer n).1 ++
        (padded 5 (bits (base32Letters buffer n).2 buffer.toNat ++ rest)).map letterOf := by
  induction n using Nat.strongRecOn with
  | _ n ih =>
      unfold base32Letters
      split
      · rename_i k
        have hgroup : bits (k + 5) buffer.toNat =
            bits 5 (buffer >>> UInt64.ofNat k).toNat ++ bits k buffer.toNat := by
          rw [Nat.add_comm, bits_add, toNat_shiftOut (by omega)]
        rw [hgroup, List.append_assoc, padded_append (by decide) length_bits, List.map_cons,
          ih k (by omega) (by omega), base32Letter_eq]
        rfl
      · rfl

theorem base32Loop_eq (hn : n < 5) :
    base32Loop buffer n input =
      (padded 5 (bits n buffer.toNat ++ stream 8 (input.map (·.toNat)))).map letterOf := by
  induction input generalizing buffer n with
  | nil =>
      unfold base32Loop
      rw [List.map_nil, stream, List.flatMap_nil, List.append_nil]
      split
      · rename_i hpos
        have hfilled : bits 5 (buffer <<< UInt64.ofNat (5 - n)).toNat =
            bits n buffer.toNat ++ List.replicate (5 - n) false := by
          have h := @bits_shiftIn buffer n (5 - n) 0 (by omega) (Nat.pow_pos (by decide))
            (by omega)
          rwa [UInt64.or_zero, Nat.add_sub_cancel' (Nat.le_of_lt hn), UInt64.toNat_zero,
            bits_zero] at h
        rw [padded_of_length_le (by rwa [length_bits]) (by rw [length_bits]; omega), length_bits,
          base32Letter_eq, hfilled]
        rfl
      · rename_i hzero
        obtain rfl : n = 0 := by omega
        rw [bits, padded_nil]
        rfl
  | cons byte input ih =>
      have hbyte : byte.toUInt64.toNat < 2 ^ 8 := byte.toNat_lt
      have hin := @bits_shiftIn buffer n 8 byte.toUInt64 (by decide) hbyte (by omega)
      have hletters := @base32Letters_eq (buffer <<< 8 ||| byte.toUInt64) (n + 8) (by omega)
        (stream 8 (input.map (·.toNat)))
      have hleft := @base32Letters_lt (buffer <<< 8 ||| byte.toUInt64) (n + 8)
      have hstream : bits n buffer.toNat ++ stream 8 ((byte :: input).map (·.toNat)) =
          bits (n + 8) (buffer <<< 8 ||| byte.toUInt64).toNat ++
            stream 8 (input.map (·.toNat)) := by
        have hcons : stream 8 ((byte :: input).map (·.toNat)) =
            bits 8 byte.toNat ++ stream 8 (input.map (·.toNat)) := rfl
        rw [hcons, ← List.append_assoc]
        congr 1
        exact hin.symm
      rw [hstream, hletters, ← ih hleft]
      rfl

theorem toList_base32Encode :
    (base32Encode input).toList = (padded 5 (stream 8 (input.map (·.toNat)))).map letterOf := by
  unfold base32Encode
  rw [String.toList_ofList, base32Loop_eq (by decide)]
  rfl

/-! ## The decoder -/

theorem findIdx?_alphabet {c : Char} (hc : c ∈ alphabet) :
    alphabet.findIdx? (· == c) = some (alphabet.idxOf c) := by
  have hall : alphabet.all (fun c => alphabet.findIdx? (· == c) == some (alphabet.idxOf c)) := by
    decide
  exact eq_of_beq (List.all_eq_true.mp hall c hc)

theorem findIdx?_eq_none {c : Char} (hc : c ∉ alphabet) : alphabet.findIdx? (· == c) = none := by
  rw [List.findIdx?_eq_none_iff]
  intro x hx
  exact beq_eq_false_iff_ne.mpr fun hxc => hc (hxc ▸ hx)

theorem idxOf_lt {c : Char} (hc : c ∈ alphabet) : alphabet.idxOf c < 32 :=
  List.idxOf_lt_length_of_mem hc

/-- A byte is complete with eight bits. The bits above those left do not matter. -/
theorem base32DecodeLoop_eq (hn : n < 8) (hcs : ∀ c ∈ cs, c ∈ alphabet) :
    base32DecodeLoop buffer n cs = some ((whole 8
      (bits n buffer.toNat ++ stream 5 (cs.map (alphabet.idxOf ·)))).map UInt8.ofNat) := by
  induction cs generalizing buffer n with
  | nil =>
      rw [List.map_nil, stream, List.flatMap_nil, List.append_nil,
        whole_of_length_lt (by rwa [length_bits])]
      rfl
  | cons c cs ih =>
      have hc := hcs c List.mem_cons_self
      have htail := fun c' h' => hcs c' (List.mem_cons_of_mem c h')
      have hval : (UInt64.ofNat (alphabet.idxOf c)).toNat = alphabet.idxOf c := by
        rw [UInt64.toNat_ofNat', Nat.mod_eq_of_lt (Nat.lt_trans (idxOf_lt hc) (by decide))]
      have hin := @bits_shiftIn buffer n 5 (UInt64.ofNat (alphabet.idxOf c)) (by decide)
        (by rw [hval]; exact idxOf_lt hc) (by omega)
      have hstream : bits n buffer.toNat ++ stream 5 ((c :: cs).map (alphabet.idxOf ·)) =
          bits (n + 5) (buffer <<< 5 ||| UInt64.ofNat (alphabet.idxOf c)).toNat ++
            stream 5 (cs.map (alphabet.idxOf ·)) := by
        have hcons : stream 5 ((c :: cs).map (alphabet.idxOf ·)) =
            bits 5 (alphabet.idxOf c) ++ stream 5 (cs.map (alphabet.idxOf ·)) := rfl
        rw [hcons, ← List.append_assoc]
        congr 1
        rw [hval] at hin
        exact hin.symm
      rw [hstream, base32DecodeLoop, findIdx?_alphabet hc]
      dsimp only
      generalize buffer <<< 5 ||| UInt64.ofNat (alphabet.idxOf c) = next
      split
      · rename_i hbyte
        have hleft : n + 5 - 8 < 64 := by omega
        have hgroup : bits (n + 5) next.toNat =
            bits 8 (next >>> UInt64.ofNat (n + 5 - 8)).toNat ++ bits (n + 5 - 8) next.toNat := by
          rw [toNat_shiftOut hleft, ← bits_add, Nat.add_sub_cancel' hbyte]
        have hout : (next >>> UInt64.ofNat (n + 5 - 8)).toUInt8 =
            UInt8.ofNat (value (bits 8 (next >>> UInt64.ofNat (n + 5 - 8)).toNat)) := by
          rw [value_bits]
          exact UInt8.toNat_inj.mp (by simp)
        rw [ih (by omega) htail, bits_mask hleft, Option.map_some, hgroup, List.append_assoc,
          whole_append (by decide) length_bits, List.map_cons, hout]
      · rename_i hfew
        exact ih (by omega) htail

theorem base32DecodeLoop_eq_none :
    base32DecodeLoop buffer n cs = none ↔ ∃ c ∈ cs, c ∉ alphabet := by
  induction cs generalizing buffer n with
  | nil => simp [base32DecodeLoop]
  | cons c cs ih =>
      rw [base32DecodeLoop]
      by_cases hc : c ∈ alphabet
      · rw [findIdx?_alphabet hc]
        dsimp only
        split
        · rw [Option.map_eq_none_iff, ih]
          simp [hc]
        · rw [ih]
          simp [hc]
      · rw [findIdx?_eq_none hc]
        simp [hc]

/-! ## Both directions -/

theorem letterOf_mem {group : Nat} (h : group < 2 ^ 5) :
    letterOf group ∈ alphabet ∧ alphabet.idxOf (letterOf group) = group := by
  have hall : ∀ group : Fin (2 ^ 5), letterOf group ∈ alphabet ∧
      alphabet.idxOf (letterOf group) = group := by decide
  exact hall ⟨group, h⟩

theorem mem_alphabet_of_mem_base32Encode {c : Char} (hc : c ∈ (base32Encode input).toList) :
    c ∈ alphabet := by
  rw [toList_base32Encode] at hc
  obtain ⟨group, hgroup, rfl⟩ := List.mem_map.mp hc
  exact (letterOf_mem (lt_of_mem_padded hgroup)).1

theorem length_base32Encode : (base32Encode input).length = (8 * input.length + 4) / 5 := by
  rw [← String.length_toList, toList_base32Encode, List.length_map, length_padded (by decide),
    length_stream, List.length_map]
  rfl

theorem base32DecodeLoop_base32Encode :
    base32DecodeLoop 0 0 (base32Encode input).toList = some input := by
  have hbytes : ∀ b ∈ input.map (·.toNat), b < 2 ^ 8 := by
    intro b hb
    obtain ⟨byte, -, rfl⟩ := List.mem_map.mp hb
    exact byte.toNat_lt
  have hindexes : (base32Encode input).toList.map (alphabet.idxOf ·) =
      padded 5 (stream 8 (input.map (·.toNat))) := by
    rw [toList_base32Encode, List.map_map]
    refine (List.map_congr_left fun group hgroup => ?_).trans (List.map_id _)
    exact (letterOf_mem (lt_of_mem_padded hgroup)).2
  rw [base32DecodeLoop_eq (by decide) fun c hc => mem_alphabet_of_mem_base32Encode hc, hindexes,
    bits, List.nil_append, whole_stream_padded (by decide) (by decide) hbytes, List.map_map]
  congr 1
  refine (List.map_congr_left fun byte _ => ?_).trans (List.map_id _)
  exact UInt8.ofNat_toNat

/-- What is left of an input: no white space, and in upper case. -/
def cleaned (text : String) : List Char :=
  (text.toList.filter fun c => !isWhitespace c).flatMap toUppercase

/-- White space anywhere, and each letter in either case. -/
def SpelledAs (text spelling : String) : Prop :=
  List.Forall₂ (fun c c' => c' = c ∨ c' = c.toLower) text.toList
    (spelling.toList.filter fun c => !isWhitespace c)

theorem toUppercase_of_mem {c c' : Char} (hc : c ∈ alphabet) (h : c' = c ∨ c' = c.toLower) :
    toUppercase c' = [c] := by
  have hupper : alphabet.all fun c => toUppercase c == [c] := by decide
  have hlower : alphabet.all fun c => toUppercase c.toLower == [c] := by decide
  rcases h with rfl | rfl
  · exact eq_of_beq (List.all_eq_true.mp hupper _ hc)
  · exact eq_of_beq (List.all_eq_true.mp hlower _ hc)

theorem flatMap_toUppercase {spelling : List Char} (hcs : ∀ c ∈ cs, c ∈ alphabet)
    (h : List.Forall₂ (fun c c' => c' = c ∨ c' = c.toLower) cs spelling) :
    spelling.flatMap toUppercase = cs := by
  induction h with
  | nil => rfl
  | cons hc _ ih =>
      rw [List.flatMap_cons, toUppercase_of_mem (hcs _ List.mem_cons_self) hc,
        ih fun c hmem => hcs c (List.mem_cons_of_mem _ hmem)]
      rfl

theorem SpelledAs.refl {text : String} (htext : ∀ c ∈ text.toList, c ∈ alphabet) :
    SpelledAs text text := by
  have hspace : text.toList.filter (fun c => !isWhitespace c) = text.toList := by
    have hall : alphabet.all fun c => !isWhitespace c := by decide
    exact List.filter_eq_self.mpr fun c hc => List.all_eq_true.mp hall c (htext c hc)
  unfold SpelledAs
  rw [hspace]
  exact List.forall₂_same.mpr fun _ _ => .inl rfl

/-- A secret is read back from its text, also with white space and in another case. The text has
a letter for every five bits, and only a character outside the alphabet makes an input
unreadable. -/
theorem base32_exact (secret : List UInt8) (input : String) :
    base32Decode (base32Encode secret) = some secret ∧
    (SpelledAs (base32Encode secret) input → base32Decode input = some secret) ∧
    (base32Encode secret).length = (8 * secret.length + 4) / 5 ∧
    (∀ c ∈ (base32Encode secret).toList, c ∈ alphabet) ∧
    (base32Decode input = none ↔ ∃ c ∈ cleaned input, c ∉ alphabet) := by
  have hletters : ∀ c ∈ (base32Encode secret).toList, c ∈ alphabet := fun c hc =>
    mem_alphabet_of_mem_base32Encode hc
  have hspelled : ∀ spelling, SpelledAs (base32Encode secret) spelling →
      base32Decode spelling = some secret := by
    intro spelling h
    unfold base32Decode
    rw [flatMap_toUppercase hletters h, base32DecodeLoop_base32Encode]
  exact ⟨hspelled _ (SpelledAs.refl hletters), hspelled input, length_base32Encode, hletters,
    base32DecodeLoop_eq_none⟩

theorem base32_exact_foo : base32Decode " mZ xw\t6" = some [102, 111, 111] :=
  (base32_exact [102, 111, 111] " mZ xw\t6").2.1 (by unfold SpelledAs; decide)

end Heirloom.Backend.TwoFactor
