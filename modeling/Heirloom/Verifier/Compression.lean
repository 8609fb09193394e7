import Heirloom.Types
import Heirloom.Lib.RunLength
import Mathlib.Tactic

/-!
# Compression of proofs

The functions of `compression.rs` of the verifier: a proof is packed into pairs of a count and a
byte behind a magic byte. Read as runs, what the encoder writes is a greedy packing
(`compressFrom_greedy`), and the decoder accepts exactly the streams of non-empty runs that stay
within the limit (`decompressProof_ok`); so the two are inverse to each other, and packing again
what has been unpacked never takes more room.

An index is a `Nat`: none of those that the loops form exceeds the length of the input. A loop over
an index takes the number of bytes left as fuel, which it cannot use up.
-/

namespace Heirloom.Verifier

open RunLength

/-! ## The two functions -/

/-- The first byte of every compressed stream. -/
def magic : UInt8 := 0xC0

inductive CompressionError
  | emptyInput
  | invalidData
  | outputTooLarge
deriving DecidableEq

/-- `input.get(i).unwrap()`, at an index below the length. -/
def byteAt (input : Bytes) (i : Nat) : UInt8 := input.getD i 0

/-- The inner loop of `compress_proof`: the length of the run of `current` at `i`. -/
def runFrom (input : Bytes) (i : Nat) (current : UInt8) : Nat → Nat → Nat
  | 0, run => run
  | fuel + 1, run =>
      if run < 255 ∧ i + run < input.length ∧ byteAt input (i + run) = current then
        runFrom input i current fuel (run + 1)
      else run

/-- The outer loop of `compress_proof`, one pair a round. -/
def compressFrom (input : Bytes) : Nat → Nat → Bytes
  | 0, _ => []
  | fuel + 1, i =>
      if i < input.length then
        let current := byteAt input i
        let run := runFrom input i current 255 1
        UInt8.ofNat run :: current :: compressFrom input fuel (i + run)
      else []

def compressProof (input : Bytes) : Except CompressionError Bytes :=
  if input = [] then .error .emptyInput
  else .ok (magic :: compressFrom input input.length 0)

/-- The inner loop of `decompress_proof`: the byte, as often as the pair says. -/
def pushRun (maxOutputSize : Nat) (byte : UInt8) : Nat → Bytes → Except CompressionError Bytes
  | 0, out => .ok out
  | count + 1, out =>
      if maxOutputSize ≤ out.length then .error .outputTooLarge
      else pushRun maxOutputSize byte count (out ++ [byte])

/-- The outer loop of `decompress_proof`, one pair a round. -/
def decompressFrom (input : Bytes) (maxOutputSize : Nat) :
    Nat → Nat → Bytes → Except CompressionError Bytes
  | 0, _, out => .ok out
  | fuel + 1, i, out =>
      if i < input.length then
        if input.length ≤ i + 1 then .error .invalidData
        else
          let count := byteAt input i
          if count = 0 then .error .invalidData
          else
            let byte := byteAt input (i + 1)
            pushRun maxOutputSize byte count.toNat out >>=
              decompressFrom input maxOutputSize fuel (i + 2)
      else .ok out

def decompressProof (input : Bytes) (maxOutputSize : Nat) : Except CompressionError Bytes :=
  if input = [] then .error .emptyInput
  else if byteAt input 0 ≠ magic then .error .invalidData
  else decompressFrom input maxOutputSize input.length 1 []

/-! ## Streams of runs -/

/-- The pairs that stand for runs. -/
def stream (rs : List (Nat × UInt8)) : Bytes := rs.flatMap fun r => [UInt8.ofNat r.1, r.2]

/-- The cap of the format. -/
def maxRun : Nat := 255

section Streams

variable {input out rest : Bytes} {rs : List (Nat × UInt8)} {m i n fuel count : Nat}
  {current byte : UInt8}

@[simp] theorem stream_nil : stream [] = [] := rfl

@[simp] theorem stream_cons {r : Nat × UInt8} :
    stream (r :: rs) = UInt8.ofNat r.1 :: r.2 :: stream rs := rfl

theorem length_stream : (stream rs).length = 2 * rs.length := by
  induction rs with
  | nil => rfl
  | cons r rs ih =>
      simp only [stream_cons, List.length_cons, ih]
      omega

/-- A count of at most the cap fits a byte. -/
theorem toNat_count (h : count ≤ maxRun) : (UInt8.ofNat count).toNat = count := by
  rw [UInt8.toNat_ofNat']
  exact Nat.mod_eq_of_lt (Nat.lt_succ_of_le h)

/-! ## The encoder -/

theorem byteAt_drop : byteAt (input.drop i) n = byteAt input (i + n) := by
  simp [byteAt, List.getD_eq_getElem?_getD]

theorem byteAt_eq (h : i < input.length) : byteAt input i = input[i] := by
  rw [byteAt, List.getD_eq_getElem?_getD, List.getElem?_eq_getElem h]
  rfl

/-- The run that the inner loop finds. -/
theorem runFrom_spec (hroom : i + n ≤ input.length) (hmax : n ≤ 255) (hfuel : 255 ≤ fuel + n)
    (hrun : ∀ j < n, byteAt input (i + j) = current) :
    n ≤ runFrom input i current fuel n ∧ runFrom input i current fuel n ≤ maxRun ∧
      i + runFrom input i current fuel n ≤ input.length ∧
      (∀ j < runFrom input i current fuel n, byteAt input (i + j) = current) ∧
      (runFrom input i current fuel n = maxRun ∨
        i + runFrom input i current fuel n = input.length ∨
        byteAt input (i + runFrom input i current fuel n) ≠ current) := by
  induction fuel generalizing n with
  | zero => exact ⟨le_rfl, hmax, hroom, hrun, .inl (le_antisymm hmax (by simpa [runFrom, maxRun] using hfuel))⟩
  | succ fuel ih =>
      simp only [runFrom]
      split
      case isTrue hgo =>
        obtain ⟨hlt, hin, hbyte⟩ := hgo
        have hnext : ∀ j < n + 1, byteAt input (i + j) = current := by
          intro j hj
          rcases Nat.lt_succ_iff_lt_or_eq.mp hj with hlt | rfl
          · exact hrun j hlt
          · exact hbyte
        obtain ⟨hle, hrest⟩ := ih (by omega) (by omega) (by omega) hnext
        exact ⟨by omega, hrest⟩
      case isFalse hstop =>
        refine ⟨le_rfl, hmax, hroom, hrun, ?_⟩
        by_cases hfull : n = maxRun
        · exact .inl hfull
        by_cases hend : i + n = input.length
        · exact .inr (.inl hend)
        refine .inr (.inr fun hbyte => hstop ⟨?_, by omega, hbyte⟩)
        exact lt_of_le_of_ne hmax hfull

/-- A stretch of equal bytes. -/
theorem drop_eq_replicate (hroom : i + n ≤ input.length)
    (hrun : ∀ j < n, byteAt input (i + j) = current) :
    input.drop i = List.replicate n current ++ input.drop (i + n) := by
  rw [← List.drop_drop]
  conv_lhs => rw [← List.take_append_drop n (input.drop i)]
  congr 1
  refine List.ext_getElem (by simp; omega) fun j hj hj' => ?_
  have hbound : i + j < input.length := by
    rw [List.length_replicate] at hj'
    omega
  have hbyte := hrun j (by simpa using hj')
  rw [byteAt_eq hbound] at hbyte
  simpa using hbyte

/-- What the encoder writes is a greedy packing. -/
theorem compressFrom_greedy (h : input.length ≤ fuel + i) :
    ∃ rs, compressFrom input fuel i = stream rs ∧ Greedy maxRun (input.drop i) rs := by
  induction fuel generalizing i with
  | zero =>
      rw [List.drop_eq_nil_of_le (by simpa using h)]
      exact ⟨[], rfl, .nil⟩
  | succ fuel ih =>
      simp only [compressFrom]
      split
      case isFalse hend =>
        rw [List.drop_eq_nil_of_le (not_lt.mp hend)]
        exact ⟨[], rfl, .nil⟩
      case isTrue hin =>
        have hfirst : ∀ j < 1, byteAt input (i + j) = byteAt input i := fun j hj => by
          rw [Nat.lt_one_iff.mp hj]
          rfl
        have hsteps : 255 ≤ 255 + 1 := by decide
        obtain ⟨hone, hmax, hroom, hrun, hstop⟩ := runFrom_spec hin (by decide) hsteps hfirst
        set run := runFrom input i (byteAt input i) 255 1
        obtain ⟨rs, hrs, hgreedy⟩ := ih (i := i + run) (by omega)
        refine ⟨(run, byteAt input i) :: rs, by rw [hrs, stream_cons], ?_⟩
        rw [drop_eq_replicate hroom hrun]
        refine .run hone hmax ?_ hgreedy
        rcases hstop with hfull | hend | hnext
        · exact .inl hfull
        · exact .inr (by rw [List.drop_eq_nil_of_le hend.ge]; exact fun h => nomatch h)
        · refine .inr fun hsame => hnext ?_
          rw [List.head?_drop] at hsame
          rw [byteAt, List.getD_eq_getElem?_getD, hsame]
          rfl

theorem compressProof_greedy (h : input ≠ []) :
    ∃ rs, compressProof input = .ok (magic :: stream rs) ∧ Greedy maxRun input rs := by
  have hwhole : input.length ≤ input.length + 0 := le_rfl
  obtain ⟨rs, hrs, hgreedy⟩ := compressFrom_greedy hwhole
  exact ⟨rs, by rw [compressProof, if_neg h, hrs], hgreedy⟩

/-! ## The decoder -/

theorem pushRun_eq (h : out.length ≤ m) :
    pushRun m byte n out =
      if out.length + n ≤ m then .ok (out ++ List.replicate n byte)
      else .error .outputTooLarge := by
  induction n generalizing out with
  | zero => simp [pushRun, h]
  | succ n ih =>
      simp only [pushRun]
      split
      case isTrue hfull => rw [if_neg (by omega)]
      case isFalse hroom =>
        rw [ih (by simp; omega)]
        simp only [List.length_append, List.length_singleton, List.append_assoc,
          List.replicate_succ, List.singleton_append, Nat.add_assoc, Nat.add_comm 1 n]

/-- The decoder on a stream of runs. -/
theorem decompressFrom_stream (hstream : input.drop i = stream rs) (hvalid : Valid maxRun rs)
    (hfuel : input.length ≤ fuel + i) (hout : out.length ≤ m) :
    decompressFrom input m fuel i out =
      if out.length + total rs ≤ m then .ok (out ++ expand rs)
      else .error .outputTooLarge := by
  induction rs generalizing fuel i out with
  | nil =>
      have hend : input.length ≤ i := List.drop_eq_nil_iff.mp hstream
      cases fuel with
      | zero => simp [decompressFrom, hout]
      | succ fuel => simp [decompressFrom, hout, hend]
  | cons r rs ih =>
      obtain ⟨⟨hone, hmax⟩, hvalid⟩ := List.forall_mem_cons.mp hvalid
      rw [stream_cons] at hstream
      have hlength := congrArg List.length hstream
      simp only [List.length_drop, List.length_cons] at hlength
      have hcount : byteAt input i = UInt8.ofNat r.1 := by
        rw [← Nat.add_zero i, ← byteAt_drop, hstream]
        rfl
      have hbyte : byteAt input (i + 1) = r.2 := by
        rw [← byteAt_drop, hstream]
        rfl
      have htoNat := toNat_count hmax
      have hne : UInt8.ofNat r.1 ≠ 0 := by
        intro hzero
        rw [hzero] at htoNat
        exact absurd htoNat (Nat.ne_of_lt hone)
      have hrest : input.drop (i + 2) = stream rs := by
        rw [← List.drop_drop, hstream]
        rfl
      obtain ⟨fuel, rfl⟩ : ∃ k, fuel = k + 1 := ⟨fuel - 1, by omega⟩
      rw [decompressFrom, if_pos (by omega), if_neg (by omega), total_cons, expand_cons]
      simp only [hcount, hbyte, if_neg hne, htoNat, pushRun_eq hout]
      split
      case isTrue hroom =>
        show decompressFrom input m fuel (i + 2) _ = _
        rw [ih hrest hvalid (by omega) (by simpa using hroom)]
        simp only [List.length_append, List.length_replicate, List.append_assoc, Nat.add_assoc]
      case isFalse hfull =>
        show Except.error CompressionError.outputTooLarge = _
        rw [if_neg (by omega)]

/-- What the decoder accepts is a stream of runs. -/
theorem of_decompressFrom {result : Bytes} (h : decompressFrom input m fuel i out = .ok result)
    (hfuel : input.length ≤ fuel + i) :
    ∃ rs, input.drop i = stream rs ∧ Valid maxRun rs := by
  induction fuel generalizing i out with
  | zero => exact ⟨[], List.drop_eq_nil_of_le (by simpa using hfuel), by simp [Valid]⟩
  | succ fuel ih =>
      rw [decompressFrom] at h
      split at h
      case isFalse hend => exact ⟨[], List.drop_eq_nil_of_le (not_lt.mp hend), by simp [Valid]⟩
      case isTrue hin =>
        split at h
        case isTrue => cases h
        case isFalse hpair =>
          simp only at h
          split at h
          case isTrue => cases h
          case isFalse hcount =>
            cases hrun : pushRun m (byteAt input (i + 1)) (byteAt input i).toNat out with
            | error e => rw [hrun] at h; cases h
            | ok next =>
                rw [hrun] at h
                obtain ⟨rs, hrs, hvalid⟩ := ih h (by omega)
                refine ⟨((byteAt input i).toNat, byteAt input (i + 1)) :: rs, ?_,
                  List.forall_mem_cons.mpr ⟨⟨?_, ?_⟩, hvalid⟩⟩
                · rw [stream_cons, UInt8.ofNat_toNat, ← hrs, List.drop_eq_getElem_cons hin,
                    List.drop_eq_getElem_cons (i := i + 1) (by omega), byteAt_eq hin, byteAt_eq]
                · exact Nat.pos_of_ne_zero fun hzero => hcount (UInt8.toNat_inj.mp hzero)
                · exact Nat.le_of_lt_succ (UInt8.toNat_lt _)

theorem decompressProof_stream (hvalid : Valid maxRun rs) :
    decompressProof (magic :: stream rs) m =
      if total rs ≤ m then .ok (expand rs) else .error .outputTooLarge := by
  rw [decompressProof, if_neg (List.cons_ne_nil _ _), if_neg (fun h => h rfl),
    decompressFrom_stream (show (magic :: stream rs).drop 1 = stream rs from rfl) hvalid
      (Nat.le_succ _) (Nat.zero_le _)]
  simp only [List.length_nil, Nat.zero_add, List.nil_append]

/-- The decoder accepts the streams of runs that stay within the limit, and nothing else. -/
theorem decompressProof_ok :
    decompressProof input m = .ok out ↔
      ∃ rs, input = magic :: stream rs ∧ Valid maxRun rs ∧ total rs ≤ m ∧ out = expand rs := by
  constructor
  · intro h
    unfold decompressProof at h
    split at h
    case isTrue => exact nomatch h
    case isFalse hne =>
      split at h
      case isTrue => exact nomatch h
      case isFalse hmagic =>
        obtain ⟨rs, hrs, hvalid⟩ := of_decompressFrom h (Nat.le_succ _)
        obtain ⟨first, rest, rfl⟩ := List.exists_cons_of_ne_nil hne
        obtain rfl : first = magic := not_not.mp hmagic
        obtain rfl : rest = stream rs := hrs
        have hsame := decompressProof_stream (m := m) hvalid
        rw [decompressProof, if_neg hne, if_neg hmagic, h] at hsame
        split at hsame
        case isTrue hroom => exact ⟨rs, rfl, hvalid, hroom, Except.ok.inj hsame⟩
        case isFalse => exact nomatch hsame
  · rintro ⟨rs, rfl, hvalid, hroom, rfl⟩
    rw [decompressProof_stream hvalid, if_pos hroom]

/-! ## The code -/

/-- A proof survives packing and unpacking if the limit has room for it, and is refused as too
large otherwise; what the decoder accepts is the magic byte and complete pairs of a count and a
byte whose counts stay within the limit; and packing its output again takes no more room. -/
theorem proof_rle_lossless (m : Nat) :
    (∀ x : Bytes, x ≠ [] → ∃ packed, compressProof x = .ok packed ∧
      decompressProof packed m =
        if x.length ≤ m then .ok x else .error .outputTooLarge) ∧
    (∀ s out : Bytes, decompressProof s m = .ok out →
      (∃ pairs : List (UInt8 × UInt8),
        s = magic :: pairs.flatMap (fun pair => [pair.1, pair.2]) ∧
        (∀ pair ∈ pairs, 1 ≤ pair.1.toNat) ∧
        (pairs.map fun pair => pair.1.toNat).sum ≤ m) ∧
      (out ≠ [] → ∃ packed, compressProof out = .ok packed ∧ packed.length ≤ s.length ∧
        decompressProof packed m = .ok out)) := by
  constructor
  · intro x hne
    obtain ⟨rs, hpacked, hgreedy⟩ := compressProof_greedy hne
    refine ⟨_, hpacked, ?_⟩
    rw [decompressProof_stream hgreedy.valid, ← length_expand, hgreedy.expand_eq]
  · intro s out hok
    obtain ⟨rs, rfl, hvalid, hroom, rfl⟩ := decompressProof_ok.mp hok
    refine ⟨⟨rs.map fun r => (UInt8.ofNat r.1, r.2), ?_, ?_, ?_⟩, fun hne => ?_⟩
    · rw [List.flatMap_map, stream]
    · intro pair hpair
      obtain ⟨r, hr, rfl⟩ := List.mem_map.mp hpair
      rw [toNat_count (hvalid r hr).2]
      exact (hvalid r hr).1
    · rw [List.map_map]
      show (rs.map fun r => (UInt8.ofNat r.1).toNat).sum ≤ m
      rw [List.map_congr_left fun r hr => toNat_count (hvalid r hr).2]
      exact hroom
    · obtain ⟨best, hpacked, hgreedy⟩ := compressProof_greedy hne
      refine ⟨_, hpacked, ?_, ?_⟩
      · simp only [List.length_cons, length_stream]
        exact Nat.succ_le_succ (Nat.mul_le_mul_left 2 (hgreedy.length_le hvalid rfl))
      · rw [decompressProof_stream hgreedy.valid, ← length_expand, hgreedy.expand_eq,
          length_expand, if_pos hroom]

/-- Three equal bytes, unpacked from two pairs, need only one. -/
theorem proof_rle_three :
    (∃ packed, compressProof [7, 7, 7] = .ok packed ∧ decompressProof packed 3 = .ok [7, 7, 7]) ∧
    ∃ packed, compressProof [7, 7, 7] = .ok packed ∧ packed.length ≤ 5 ∧
      decompressProof packed 3 = .ok [7, 7, 7] :=
  ⟨(proof_rle_lossless 3).1 [7, 7, 7] (by decide),
    ((proof_rle_lossless 3).2 [0xC0, 2, 7, 1, 7] [7, 7, 7] (by decide)).2 (by decide)⟩

end Streams

end Heirloom.Verifier
