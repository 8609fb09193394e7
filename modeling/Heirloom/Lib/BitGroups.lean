import Mathlib.Tactic.Ring

/-!
# Regrouping a stream of bits

A list of numbers of a fixed width is a stream of bits, most significant first. The stream is
cut into groups of another width: `padded` fills up the last group with zeros, `whole` drops
what is left. Cutting into smaller groups with padding and back into whole groups gives the
numbers again.
-/

namespace BitGroups

/-- The last `width` bits of `n`, most significant first. -/
def bits : Nat → Nat → List Bool
  | 0, _ => []
  | width + 1, n => n.testBit width :: bits width n

/-- The number whose bits, most significant first, are given. -/
def value (stream : List Bool) : Nat := stream.foldl (fun n bit => 2 * n + bit.toNat) 0

/-- The bits of numbers of a width. -/
def stream (width : Nat) (numbers : List Nat) : List Bool := numbers.flatMap (bits width)

/-- Groups of a width, the last one filled up with zeros. -/
def padded (width : Nat) (l : List Bool) : List Nat :=
  if width = 0 ∨ l = [] then []
  else
    value (l.take width ++ List.replicate (width - l.length) false) :: padded width (l.drop width)
termination_by l.length
decreasing_by
  rename_i hne
  rw [List.length_drop]
  have hpos : 0 < l.length := List.length_pos_iff.mpr fun hl => hne (.inr hl)
  omega

/-- Groups of a width, without the bits left at the end. -/
def whole (width : Nat) (l : List Bool) : List Nat :=
  if width = 0 ∨ l.length < width then []
  else value (l.take width) :: whole width (l.drop width)
termination_by l.length
decreasing_by
  rw [List.length_drop]
  omega

variable {width u v n m : Nat} {l rest : List Bool} {numbers : List Nat}

/-! ## Bits and numbers -/

@[simp] theorem length_bits : (bits width n).length = width := by
  induction width with
  | zero => rfl
  | succ width ih => rw [bits, List.length_cons, ih]

theorem bits_congr (h : ∀ i < width, n.testBit i = m.testBit i) : bits width n = bits width m := by
  induction width with
  | zero => rfl
  | succ width ih =>
      rw [bits, bits, h width (Nat.lt_succ_self width),
        ih fun i hi => h i (Nat.lt_succ_of_lt hi)]

theorem bits_add : bits (u + v) n = bits u (n >>> v) ++ bits v n := by
  induction u with
  | zero => rw [Nat.zero_add]; rfl
  | succ u ih =>
      have hbit : (n >>> v).testBit u = n.testBit (u + v) := by
        rw [Nat.testBit_shiftRight, Nat.add_comm]
      rw [Nat.succ_add, bits, bits, ih, hbit, List.cons_append]

theorem bits_zero : bits width 0 = List.replicate width false := by
  induction width with
  | zero => rfl
  | succ width ih => rw [bits, ih, Nat.zero_testBit, List.replicate_succ]

theorem value_foldl (l : List Bool) (n : Nat) :
    l.foldl (fun n bit => 2 * n + bit.toNat) n = n * 2 ^ l.length + value l := by
  induction l generalizing n with
  | nil => simp [value]
  | cons bit l ih =>
      unfold value
      rw [List.foldl_cons, List.foldl_cons, ih, ih, List.length_cons, Nat.pow_succ']
      ring_nf

theorem value_cons (bit : Bool) : value (bit :: l) = bit.toNat * 2 ^ l.length + value l := by
  calc
    value (bit :: l) = l.foldl (fun n bit => 2 * n + bit.toNat) (2 * 0 + bit.toNat) := rfl
    _ = bit.toNat * 2 ^ l.length + value l := by rw [value_foldl, Nat.mul_zero, Nat.zero_add]

theorem value_bits : value (bits width n) = n % 2 ^ width := by
  induction width with
  | zero => simp [bits, value, Nat.mod_one]
  | succ width ih =>
      rw [bits, value_cons, length_bits, ih, Nat.mod_pow_succ, Nat.toNat_testBit, Nat.add_comm,
        Nat.mul_comm]

theorem value_lt : value l < 2 ^ l.length := by
  induction l with
  | nil => simp [value]
  | cons bit l ih =>
      rw [value_cons, List.length_cons, Nat.pow_succ']
      cases bit <;> simp <;> omega

theorem testBit_value_cons (bit : Bool) (i : Nat) (hi : i < l.length) :
    (value (bit :: l)).testBit i = (value l).testBit i := by
  rw [value_cons]
  cases bit with
  | false => simp
  | true =>
      rw [Bool.toNat_true, Nat.one_mul, Nat.testBit_two_pow_add_gt hi]

theorem bits_value : bits l.length (value l) = l := by
  induction l with
  | nil => rfl
  | cons bit l ih =>
      have htop : (value (bit :: l)).testBit l.length = bit := by
        have hlow : (value l).testBit l.length = false := Nat.testBit_lt_two_pow value_lt
        rw [value_cons]
        cases bit with
        | false => simpa using hlow
        | true => rw [Bool.toNat_true, Nat.one_mul, Nat.testBit_two_pow_add_eq, hlow]; rfl
      have htail : bits l.length (value (bit :: l)) = bits l.length (value l) :=
        bits_congr (testBit_value_cons bit)
      rw [List.length_cons, bits, htop, htail, ih]

/-! ## Groups -/

theorem padded_nil : padded width [] = [] := by
  unfold padded
  exact if_pos (.inr rfl)

theorem padded_append (hwidth : 0 < width) (hl : l.length = width) :
    padded width (l ++ rest) = value l :: padded width rest := by
  have hne : ¬ (width = 0 ∨ l ++ rest = []) := by
    rintro (hzero | hnil)
    · exact Nat.ne_of_gt hwidth hzero
    · rw [(List.append_eq_nil_iff.mp hnil).1] at hl
      exact Nat.ne_of_lt hwidth hl
  rw [padded, if_neg hne, List.take_append_of_le_length (Nat.le_of_eq hl.symm),
    List.take_of_length_le (Nat.le_of_eq hl), List.drop_append_of_le_length
    (Nat.le_of_eq hl.symm), List.drop_of_length_le (Nat.le_of_eq hl), List.nil_append,
    List.length_append, hl, Nat.sub_eq_zero_of_le (Nat.le_add_right _ _)]
  simp

/-- The last group. -/
theorem padded_of_length_le (hpos : 0 < l.length) (hl : l.length ≤ width) :
    padded width l = [value (l ++ List.replicate (width - l.length) false)] := by
  have hne : ¬ (width = 0 ∨ l = []) := by
    rintro (rfl | rfl)
    · exact Nat.not_lt.mpr hl hpos
    · exact Nat.lt_irrefl 0 hpos
  rw [padded, if_neg hne, List.take_of_length_le hl, List.drop_of_length_le hl, padded_nil]

theorem whole_of_length_lt (hl : l.length < width) : whole width l = [] := by
  unfold whole
  exact if_pos (.inr hl)

theorem whole_append (hwidth : 0 < width) (hl : l.length = width) :
    whole width (l ++ rest) = value l :: whole width rest := by
  have hlong : ¬ (width = 0 ∨ (l ++ rest).length < width) := by
    rw [List.length_append, hl]
    omega
  rw [whole, if_neg hlong, List.take_append_of_le_length (Nat.le_of_eq hl.symm),
    List.take_of_length_le (Nat.le_of_eq hl), List.drop_append_of_le_length
    (Nat.le_of_eq hl.symm), List.drop_of_length_le (Nat.le_of_eq hl), List.nil_append]

theorem length_padded (hwidth : 0 < width) :
    (padded width l).length = (l.length + width - 1) / width := by
  induction l using padded.induct width with
  | case1 l h =>
      obtain hzero | rfl := h
      · exact absurd hzero (Nat.ne_of_gt hwidth)
      · have hnone : ([] : List Bool).length + width - 1 < width := by
          rw [List.length_nil]
          omega
        rw [padded_nil, Nat.div_eq_of_lt hnone, List.length_nil]
  | case2 l h ih =>
      have hpos : 0 < l.length := List.length_pos_iff.mpr fun hl => h (.inr hl)
      rw [padded, if_neg h, List.length_cons, ih, List.length_drop]
      obtain hlt | hle := Nat.lt_or_ge width l.length
      · have hrest : l.length + width - 1 = l.length - width + width - 1 + width := by omega
        rw [hrest, Nat.add_div_right _ hwidth]
      · have hlast : (l.length + width - 1) / width = 1 := by
          rw [Nat.div_eq_iff hwidth]
          omega
        rw [hlast, Nat.sub_eq_zero_of_le hle, Nat.div_eq_of_lt (by omega)]

/-- Every group has its width. -/
theorem lt_of_mem_padded (h : n ∈ padded width l) : n < 2 ^ width := by
  induction l using padded.induct width with
  | case1 l hnil =>
      rw [padded, if_pos hnil] at h
      cases h
  | case2 l hne ih =>
      rw [padded, if_neg hne] at h
      obtain rfl | htail := List.mem_cons.mp h
      · refine Nat.lt_of_lt_of_eq value_lt ?_
        rw [List.length_append, List.length_take, List.length_replicate]
        congr 1
        omega
      · exact ih htail

/-- The stream of the padded groups is the stream and less than a group of zeros. -/
theorem stream_padded (hwidth : 0 < width) :
    ∃ zeros < width, stream width (padded width l) = l ++ List.replicate zeros false := by
  induction l using padded.induct width with
  | case1 l h =>
      obtain hzero | rfl := h
      · exact absurd hzero (Nat.ne_of_gt hwidth)
      · exact ⟨0, hwidth, by rw [padded_nil]; rfl⟩
  | case2 l h ih =>
      have hpos : 0 < l.length := List.length_pos_iff.mpr fun hl => h (.inr hl)
      obtain hlt | hle := Nat.lt_or_ge width l.length
      · obtain ⟨zeros, hzeros, htail⟩ := ih
        have htake : (l.take width).length = width := by
          rw [List.length_take, Nat.min_eq_left (Nat.le_of_lt hlt)]
        refine ⟨zeros, hzeros, ?_⟩
        rw [← l.take_append_drop width, padded_append hwidth htake, List.append_assoc, ← htail]
        unfold stream
        have hbits := bits_value (l := l.take width)
        rw [htake] at hbits
        rw [List.flatMap_cons, hbits]
      · refine ⟨width - l.length, by omega, ?_⟩
        have hgroup : (l ++ List.replicate (width - l.length) false).length = width := by
          rw [List.length_append, List.length_replicate, Nat.add_sub_cancel' hle]
        have hbits := bits_value (l := l ++ List.replicate (width - l.length) false)
        rw [hgroup] at hbits
        rw [padded_of_length_le hpos hle]
        unfold stream
        rw [List.flatMap_singleton, hbits]

/-- What is left when the groups are whole is less than a group. -/
theorem whole_stream (hwidth : 0 < width) (hnumbers : ∀ n ∈ numbers, n < 2 ^ width)
    (hrest : rest.length < width) : whole width (stream width numbers ++ rest) = numbers := by
  induction numbers with
  | nil => exact whole_of_length_lt hrest
  | cons n numbers ih =>
      have hn := hnumbers n List.mem_cons_self
      unfold stream at ih ⊢
      rw [List.flatMap_cons, List.append_assoc, whole_append hwidth length_bits, value_bits,
        Nat.mod_eq_of_lt hn, ih fun m hm => hnumbers m (List.mem_cons_of_mem n hm)]

/-- Cut into smaller groups and put together again, the numbers are what they were. -/
theorem whole_stream_padded (hu : 0 < u) (huv : u ≤ v) (hnumbers : ∀ n ∈ numbers, n < 2 ^ v) :
    whole v (stream u (padded u (stream v numbers))) = numbers := by
  obtain ⟨zeros, hzeros, hstream⟩ := stream_padded hu (l := stream v numbers)
  rw [hstream]
  refine whole_stream (Nat.lt_of_lt_of_le hu huv) hnumbers ?_
  rw [List.length_replicate]
  exact Nat.lt_of_lt_of_le hzeros huv

theorem length_stream : (stream width numbers).length = width * numbers.length := by
  induction numbers with
  | nil => rfl
  | cons n numbers ih =>
      unfold stream at ih ⊢
      rw [List.flatMap_cons, List.length_append, length_bits, ih, List.length_cons, Nat.mul_succ,
        Nat.add_comm]

end BitGroups
