import Mathlib.Algebra.Group.Nat.Defs
import Mathlib.Data.Int.Basic

/-!
# Numbers as bytes

A number in a fixed count of bytes, least significant first, and an integer in two's
complement. Within the range of the width the bytes determine the number.
-/

namespace LittleEndian

/-- The last `width` bytes of `n`, least significant first. -/
def encode (width n : Nat) : List UInt8 :=
  (List.range width).map fun i => UInt8.ofNat (n / 256 ^ i)

/-- The number whose bytes, least significant first, are given. -/
def value (bytes : List UInt8) : Nat := bytes.foldr (fun b n => b.toNat + 256 * n) 0

/-- The two's complement of `x` in `width` bytes. -/
def encodeInt (width : Nat) (x : Int) : List UInt8 := encode width (x % ((256 ^ width : Nat) : Int)).toNat

variable {width n m : Nat} {x y : Int}

@[simp] theorem length_encode : (encode width n).length = width := by simp [encode]

@[simp] theorem length_encodeInt : (encodeInt width x).length = width := length_encode

theorem encode_succ : encode (width + 1) n = UInt8.ofNat n :: encode width (n / 256) := by
  unfold encode
  rw [List.range_succ_eq_map, List.map_cons, List.map_map]
  congr 1
  · simp
  · refine List.map_congr_left fun i _ => ?_
    rw [Function.comp_apply, Nat.succ_eq_add_one, Nat.pow_succ', Nat.div_div_eq_div_mul]

theorem value_encode : value (encode width n) = n % 256 ^ width := by
  induction width generalizing n with
  | zero => simp [encode, value, Nat.mod_one]
  | succ width ih =>
      have hbyte : (UInt8.ofNat n).toNat = n % 256 := UInt8.toNat_ofNat
      have htail := ih (n := n / 256)
      rw [encode_succ, Nat.pow_succ', Nat.mod_mul]
      unfold value at htail ⊢
      rw [List.foldr_cons, htail, hbyte]

theorem encode_injective (hn : n < 256 ^ width) (hm : m < 256 ^ width)
    (h : encode width n = encode width m) : n = m := by
  have hvalue := congrArg value h
  rwa [value_encode, value_encode, Nat.mod_eq_of_lt hn, Nat.mod_eq_of_lt hm] at hvalue

/-- Two integers with the same bytes are equal if they are less than the whole range apart. -/
theorem encodeInt_injective (hxy : (x - y).natAbs < 256 ^ width)
    (h : encodeInt width x = encodeInt width y) : x = y := by
  have hpos : 0 < 256 ^ width := Nat.pow_pos (by decide)
  have hrange : ∀ z : Int, 0 ≤ z % ((256 ^ width : Nat) : Int) ∧
      z % ((256 ^ width : Nat) : Int) < (256 ^ width : Nat) := fun z =>
    ⟨Int.emod_nonneg z (by omega), Int.emod_lt_of_pos z (by omega)⟩
  have hmod : x % ((256 ^ width : Nat) : Int) = y % ((256 ^ width : Nat) : Int) := by
    obtain ⟨hx, hx'⟩ := hrange x
    obtain ⟨hy, hy'⟩ := hrange y
    have hnat := encode_injective (by omega) (by omega) h
    omega
  have hdvd : ((256 ^ width : Nat) : Int) ∣ x - y :=
    Int.dvd_of_emod_eq_zero (Int.emod_eq_emod_iff_emod_sub_eq_zero.mp hmod)
  exact Int.sub_eq_zero.mp (Int.eq_zero_of_dvd_of_natAbs_lt_natAbs hdvd (by simpa using hxy))

end LittleEndian
