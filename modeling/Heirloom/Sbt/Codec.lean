import Heirloom.Sbt.Compression
import Mathlib.Data.List.Chain
import Mathlib.Data.Nat.Bitwise
import Mathlib.Tactic

/-!
# The block codec of metadata

`Blocks stream values` says what a stream of blocks stands for, without saying how
it was found or how it is read. The encoder writes a stream for the bytes it packs
(`encodeFrom_blocks`), the decoder pushes the values of any stream it reads
(`decodeFrom_blocks`), and pushing the packed bytes gives the metadata back
(`pushAll_transformed`); so every frame of the encoder is read back
(`decompressMetadata_framed`), in both modes. Whatever bytes the decoder is given, its loops
end within their rounds (`decodeFrom_rounds`, `legacyFrom_rounds`) and its output stays within
the limit (`length_decompressMetadata`).
-/

namespace Heirloom.Sbt

/-! ## Streams of blocks -/

/-- `stream` is a sequence of blocks that stands for `values`. -/
inductive Blocks : Bytes → Bytes → Prop
  | done : Blocks [] []
  | repeated {n : Nat} {v : UInt8} {stream values : Bytes} :
      n < 128 → Blocks stream values →
      Blocks ((0x80 ||| UInt8.ofNat n) :: v :: stream) (List.replicate (n + 3) v ++ values)
  | literal {n : Nat} {vs stream values : Bytes} :
      n < 128 → vs.length = n + 1 → Blocks stream values →
      Blocks (UInt8.ofNat n :: (vs ++ stream)) (vs ++ values)

/-- A block of one literal byte is the worst case. -/
theorem Blocks.length_le {stream values : Bytes} (h : Blocks stream values) :
    stream.length ≤ 2 * values.length := by
  induction h with
  | done => simp
  | repeated _ _ ih =>
      simp only [List.length_cons, List.length_append, List.length_replicate]
      omega
  | literal _ hvs _ ih =>
      simp only [List.length_cons, List.length_append]
      omega

/-! ## The tokens of blocks -/

theorem repeat_token {n : Nat} (h : n < 128) :
    (0x80 ||| UInt8.ofNat n) &&& 0x80 ≠ 0 ∧ (0x80 ||| UInt8.ofNat n).toNat &&& 0x7F = n := by
  have htokens : ∀ i : Fin 128, (0x80 ||| UInt8.ofNat i.val) &&& 0x80 ≠ 0 ∧
      (0x80 ||| UInt8.ofNat i.val).toNat &&& 0x7F = i.val := by decide +kernel
  exact htokens ⟨n, h⟩

theorem literal_token {n : Nat} (h : n < 128) :
    UInt8.ofNat n &&& 0x80 = 0 ∧ (UInt8.ofNat n).toNat &&& 0x7F = n := by
  have htokens : ∀ i : Fin 128, UInt8.ofNat i.val &&& 0x80 = 0 ∧
      (UInt8.ofNat i.val).toNat &&& 0x7F = i.val := by decide +kernel
  exact htokens ⟨n, h⟩

/-! ## The decoder -/

section Decoder

variable {mode : UInt8} {values more : Bytes} {d : Decoder}

theorem pushAll_append :
    pushAll mode (values ++ more) d = pushAll mode values d >>= pushAll mode more := by
  induction values generalizing d with
  | nil => rfl
  | cons v values ih =>
      simp only [List.cons_append, pushAll, bind, Except.bind]
      cases pushDecoded mode d v with
      | error err => rfl
      | ok d' => exact ih

/-- The bytes that pushed values stand for, after a byte. -/
def restored (mode : UInt8) : UInt8 → Bytes → Bytes
  | _, [] => []
  | previous, value :: values =>
      let decoded := if mode = modeDelta then previous + value else value
      decoded :: restored mode decoded values

@[simp] theorem length_restored {previous : UInt8} :
    (restored mode previous values).length = values.length := by
  induction values generalizing previous with
  | nil => rfl
  | cons v values ih => simp [restored, ih]

/-- Values are pushed as far as the limit allows. -/
theorem pushAll_ok (mode : UInt8) (values : Bytes) (d : Decoder)
    (h : d.output.length + values.length ≤ maxMetadataSize) :
    ∃ last, pushAll mode values d =
      .ok ⟨d.output ++ restored mode d.previous values, last⟩ := by
  induction values generalizing d with
  | nil => exact ⟨d.previous, by simp [pushAll, restored]⟩
  | cons v values ih =>
      have hroom : ¬ maxMetadataSize ≤ d.output.length := by
        simp only [List.length_cons] at h
        omega
      obtain ⟨last, hrest⟩ := ih ⟨d.output ++ [if mode = modeDelta then d.previous + v else v],
        if mode = modeDelta then d.previous + v else v⟩ (by
          simp only [List.length_cons, List.length_append, List.length_nil] at h ⊢
          omega)
      refine ⟨last, ?_⟩
      simp only [pushAll, pushDecoded, if_neg hroom, bind, Except.bind, hrest, restored,
        List.append_assoc, List.singleton_append]

/-- Pushing keeps the output within the limit. -/
theorem length_pushAll {last : Decoder} (h : pushAll mode values d = .ok last)
    (hd : d.output.length ≤ maxMetadataSize) : last.output.length ≤ maxMetadataSize := by
  induction values generalizing d with
  | nil =>
      obtain rfl := Except.ok.inj h
      exact hd
  | cons v values ih =>
      simp only [pushAll, pushDecoded] at h
      split at h
      case isTrue => exact nomatch h
      case isFalse hroom =>
        refine ih h ?_
        rw [List.length_append, List.length_singleton]
        exact Nat.lt_of_not_le hroom

/-- A round that pushes keeps the output within the limit if the rounds after it do. -/
theorem length_pushAll_bind {rounds : Decoder → Except CompressionError Decoder} {last : Decoder}
    (h : pushAll mode values d >>= rounds = .ok last) (hd : d.output.length ≤ maxMetadataSize)
    (hrounds : ∀ {d'}, rounds d' = .ok last → d'.output.length ≤ maxMetadataSize →
      last.output.length ≤ maxMetadataSize) : last.output.length ≤ maxMetadataSize := by
  cases hpush : pushAll mode values d with
  | error err =>
      rw [hpush] at h
      exact nomatch h
  | ok d' =>
      rw [hpush] at h
      exact hrounds h (length_pushAll hpush hd)

/-- What a decoder returns is the output it ends with. -/
theorem ok_output {run : Except CompressionError Decoder} {out : Bytes}
    (h : (do let d ← run; pure d.output) = .ok out) : ∃ last, run = .ok last ∧ last.output = out := by
  cases run with
  | error err => exact nomatch h
  | ok last => exact ⟨last, rfl, Except.ok.inj h⟩

theorem length_decodeFrom {encoded : Bytes} {stop fuel index : Nat} {last : Decoder}
    (h : decodeFrom encoded stop mode fuel index d = .ok last)
    (hd : d.output.length ≤ maxMetadataSize) : last.output.length ≤ maxMetadataSize := by
  induction fuel generalizing index d with
  | zero =>
      obtain rfl := Except.ok.inj h
      exact hd
  | succ fuel ih =>
      simp only [decodeFrom] at h
      split at h
      case isFalse =>
        obtain rfl := Except.ok.inj h
        exact hd
      case isTrue =>
        split at h
        case isTrue =>
          split at h
          · exact nomatch h
          · exact length_pushAll_bind h hd ih
        case isFalse =>
          split at h
          · exact nomatch h
          · exact length_pushAll_bind h hd ih

theorem length_legacyFrom {metadata : Bytes} {fuel index : Nat} {last : Decoder}
    (h : legacyFrom metadata fuel index d = .ok last)
    (hd : d.output.length ≤ maxMetadataSize) : last.output.length ≤ maxMetadataSize := by
  induction fuel generalizing index d with
  | zero =>
      obtain rfl := Except.ok.inj h
      exact hd
  | succ fuel ih =>
      simp only [legacyFrom] at h
      split at h
      case isFalse =>
        obtain rfl := Except.ok.inj h
        exact hd
      case isTrue =>
        split at h
        · exact nomatch h
        · split at h
          · exact nomatch h
          · exact length_pushAll_bind h hd ih

/-- The block loop has ended when its rounds are used up: more of them change nothing. -/
theorem decodeFrom_rounds {encoded : Bytes} {stop fuel index : Nat} (more : Nat)
    (h : stop - index ≤ fuel) :
    decodeFrom encoded stop mode (fuel + more) index d =
      decodeFrom encoded stop mode fuel index d := by
  induction fuel generalizing index d with
  | zero =>
      have hend : ¬ index < stop := by omega
      cases more with
      | zero => rfl
      | succ more =>
          rw [Nat.zero_add]
          show decodeFrom encoded stop mode (more + 1) index d = .ok d
          rw [decodeFrom, if_neg hend]
  | succ fuel ih =>
      rw [Nat.succ_add, decodeFrom, decodeFrom]
      have hblock : ∀ count, decodeFrom encoded stop mode (fuel + more) (index + 1 + count) =
          decodeFrom encoded stop mode fuel (index + 1 + count) :=
        fun count => funext fun d' => ih (by omega)
      simp only [hblock, hblock 1]

/-- The run-length loop has ended when its rounds are used up. -/
theorem legacyFrom_rounds {metadata : Bytes} {fuel index : Nat} (more : Nat)
    (h : metadata.length - index ≤ fuel) :
    legacyFrom metadata (fuel + more) index d = legacyFrom metadata fuel index d := by
  induction fuel generalizing index d with
  | zero =>
      have hend : ¬ index < metadata.length := by omega
      cases more with
      | zero => rfl
      | succ more =>
          rw [Nat.zero_add]
          show legacyFrom metadata (more + 1) index d = .ok d
          rw [legacyFrom, if_neg hend]
  | succ fuel ih =>
      rw [Nat.succ_add, legacyFrom, legacyFrom]
      have hpair : legacyFrom metadata (fuel + more) (index + 2) =
          legacyFrom metadata fuel (index + 2) := funext fun d' => ih (by omega)
      rw [hpair]

theorem byteAt_append_right (bytes rest : Bytes) (i : Nat) :
    byteAt (bytes ++ rest) (bytes.length + i) = byteAt rest i := by
  simp [byteAt, List.getElem?_append_right (Nat.le_add_right _ _)]

theorem byteAt_cons_zero (b : UInt8) (rest : Bytes) : byteAt (b :: rest) 0 = b := rfl

theorem byteAt_cons_succ (b : UInt8) (rest : Bytes) (i : Nat) :
    byteAt (b :: rest) (i + 1) = byteAt rest i := rfl

/-- Reading consecutive indices reads a part of the list. -/
theorem map_byteAt (before vs after : Bytes) :
    ((List.range vs.length).map fun i => byteAt (before ++ (vs ++ after)) (before.length + i)) =
      vs := by
  refine List.ext_getElem (by simp) fun i h₁ h₂ => ?_
  simp only [List.getElem_map, List.getElem_range, byteAt_append_right]
  simp [byteAt, List.getElem?_append_left h₂, List.getElem?_eq_getElem h₂]

/-- The decoder pushes what the stream that it reads stands for. -/
theorem decodeFrom_blocks {stream : Bytes} (mode : UInt8) (h : Blocks stream values)
    (before : Bytes) (fuel : Nat) (d : Decoder) (hfuel : stream.length ≤ fuel) :
    decodeFrom (before ++ stream) (before ++ stream).length mode fuel before.length d =
      pushAll mode values d := by
  -- a round reads one block; what it has read joins `before`
  induction h generalizing before fuel d with
  | done =>
      cases fuel with
      | zero => rfl
      | succ fuel => simp [decodeFrom, pushAll]
  | @repeated n v stream values hn _ ih =>
      obtain ⟨fuel, rfl⟩ : ∃ f, fuel = f + 1 := ⟨fuel - 1, by simp at hfuel; omega⟩
      obtain ⟨hflag, hcount⟩ := repeat_token hn
      have htoken : byteAt (before ++ (0x80 ||| UInt8.ofNat n) :: v :: stream) before.length =
          0x80 ||| UInt8.ofNat n := byteAt_append_right before _ 0
      have hvalue : byteAt (before ++ (0x80 ||| UInt8.ofNat n) :: v :: stream)
          (before.length + 1) = v := byteAt_append_right before _ 1
      have hmore := fun d' => ih (before ++ [0x80 ||| UInt8.ofNat n, v]) fuel d' (by
        simp only [List.length_cons] at hfuel
        omega)
      simp only [List.append_assoc, List.cons_append, List.nil_append, List.length_append,
        List.length_cons, List.length_nil] at hmore
      simp only [decodeFrom, htoken, hvalue, hcount, List.length_append, List.length_cons]
      rw [if_pos (by omega), if_pos hflag, if_neg (by omega), pushAll_append]
      congr 1
      funext d'
      exact hmore d'
  | @literal n vs stream values hn hvs _ ih =>
      obtain ⟨fuel, rfl⟩ : ∃ f, fuel = f + 1 := ⟨fuel - 1, by simp at hfuel; omega⟩
      obtain ⟨hflag, hcount⟩ := literal_token hn
      have htoken : byteAt (before ++ UInt8.ofNat n :: (vs ++ stream)) before.length =
          UInt8.ofNat n := byteAt_append_right before _ 0
      have hvalues : ((List.range (n + 1)).map fun i =>
          byteAt (before ++ UInt8.ofNat n :: (vs ++ stream)) (before.length + 1 + i)) = vs := by
        simpa [hvs] using map_byteAt (before ++ [UInt8.ofNat n]) vs stream
      have hmore := fun d' => ih (before ++ UInt8.ofNat n :: vs) fuel d' (by
        simp only [List.length_cons, List.length_append] at hfuel
        omega)
      simp only [List.append_assoc, List.cons_append, List.length_append, List.length_cons]
        at hmore
      simp only [decodeFrom, htoken, hcount, hvalues, List.length_append, List.length_cons]
      rw [if_pos (by omega), if_neg (by simp [hflag]), if_neg (by omega), pushAll_append]
      congr 1
      funext d'
      rw [← hmore d', hvs]
      congr 1
      omega

end Decoder

/-! ## The encoder -/

section Encoder

variable {metadata : Bytes} {mode : UInt8} {start index : Nat}

/-- The bytes that are packed: the metadata, or its differences. -/
def transformed (metadata : Bytes) (mode : UInt8) : Bytes :=
  (List.range metadata.length).map fun i => transformedByte metadata i mode

@[simp] theorem length_transformed : (transformed metadata mode).length = metadata.length := by
  simp [transformed]

theorem drop_transformed {n : Nat} (mode : UInt8) (h : index + n ≤ metadata.length) :
    (transformed metadata mode).drop index =
      ((List.range n).map fun i => transformedByte metadata (index + i) mode) ++
        (transformed metadata mode).drop (index + n) := by
  rw [← List.drop_drop, eq_comm]
  have htake : ((List.range n).map fun i => transformedByte metadata (index + i) mode) =
      ((transformed metadata mode).drop index).take n := by
    refine List.ext_getElem (by simp; omega) fun i h₁ h₂ => ?_
    simp [transformed]
  rw [htake, List.take_append_drop]

theorem repeatFrom_spec (mode expected : UInt8) (fuel length : Nat)
    (hroom : start + length ≤ metadata.length) (hmax : length ≤ maxRepeatLength) :
    length ≤ repeatFrom metadata start mode expected fuel length ∧
      repeatFrom metadata start mode expected fuel length ≤ maxRepeatLength ∧
      start + repeatFrom metadata start mode expected fuel length ≤ metadata.length ∧
      ∀ i, length ≤ i → i < repeatFrom metadata start mode expected fuel length →
        transformedByte metadata (start + i) mode = expected := by
  induction fuel generalizing length with
  | zero => exact ⟨le_rfl, hmax, hroom, fun i h h' => absurd h' (by simp [repeatFrom]; omega)⟩
  | succ fuel ih =>
      simp only [repeatFrom]
      split
      case isTrue hgo =>
        obtain ⟨hlt, hin, hbyte⟩ := hgo
        obtain ⟨hle, hub, hend, hall⟩ := ih (length + 1) (by omega) (by omega)
        refine ⟨by omega, hub, hend, fun i h h' => ?_⟩
        obtain rfl | hlater := Nat.eq_or_lt_of_le h
        · exact hbyte
        · exact hall i hlater h'
      case isFalse =>
        exact ⟨le_rfl, hmax, hroom, fun i h h' => absurd h' (by omega)⟩

/-- A run is inside the metadata, fits in a token and is of one byte. -/
theorem repeatLength_spec (mode : UInt8) (h : start < metadata.length) :
    repeatLength metadata start mode ≤ maxRepeatLength ∧
      start + repeatLength metadata start mode ≤ metadata.length ∧
      ∀ i < repeatLength metadata start mode,
        transformedByte metadata (start + i) mode = transformedByte metadata start mode := by
  obtain ⟨_, hub, hend, hall⟩ := repeatFrom_spec mode
    (transformedByte metadata start mode) maxRepeatLength 1 (show start + 1 ≤ metadata.length from h)
    (by decide)
  refine ⟨hub, hend, fun i hi => ?_⟩
  cases i with
  | zero => rfl
  | succ i => exact hall (i + 1) (by omega) hi

theorem literalFrom_spec (mode : UInt8) (fuel index length : Nat) (hroom : index ≤ metadata.length)
    (hmax : length ≤ maxLiteralLength) :
    length ≤ literalFrom metadata mode fuel index length ∧
      literalFrom metadata mode fuel index length ≤ maxLiteralLength ∧
      index + literalFrom metadata mode fuel index length ≤ metadata.length + length := by
  induction fuel generalizing index length with
  | zero =>
      simp only [literalFrom]
      exact ⟨le_rfl, hmax, by omega⟩
  | succ fuel ih =>
      simp only [literalFrom]
      split
      case isTrue hgo =>
        split
        · exact ⟨le_rfl, hmax, by omega⟩
        · obtain ⟨hle, hub, hend⟩ := ih (index + 1) (length + 1) (by omega) (by omega)
          exact ⟨by omega, hub, by omega⟩
      case isFalse => exact ⟨le_rfl, hmax, by omega⟩

/-- A stretch of literals has at least one byte, is inside the metadata and fits in a
token. -/
theorem literalLength_spec (mode : UInt8) (h : index < metadata.length) :
    1 ≤ literalFrom metadata mode maxLiteralLength index 0 ∧
      literalFrom metadata mode maxLiteralLength index 0 ≤ maxLiteralLength ∧
      index + literalFrom metadata mode maxLiteralLength index 0 ≤ metadata.length := by
  have hfirst : literalFrom metadata mode maxLiteralLength index 0 =
      literalFrom metadata mode 127 (index + 1) 1 := by
    change literalFrom metadata mode (127 + 1) index 0 = _
    rw [literalFrom, if_pos ⟨h, by decide⟩, if_neg (by simp)]
  obtain ⟨hle, hub, hend⟩ := literalFrom_spec mode 127 (index + 1) 1
    (show index + 1 ≤ metadata.length from h) (by decide)
  rw [hfirst]
  exact ⟨hle, hub, by omega⟩

/-- What the encoder writes stands for the bytes it packs. -/
theorem encodeFrom_blocks (fuel index : Nat) (h : index ≤ metadata.length)
    (hfuel : metadata.length - index ≤ fuel) :
    Blocks (encodeFrom metadata mode fuel index) ((transformed metadata mode).drop index) := by
  induction fuel generalizing index with
  | zero =>
      rw [List.drop_of_length_le (by simp; omega)]
      exact .done
  | succ fuel ih =>
      simp only [encodeFrom]
      split
      case isFalse hend =>
        rw [List.drop_of_length_le (by simp; omega)]
        exact .done
      case isTrue hin =>
        split
        case isTrue hrun =>
          obtain ⟨hmax, hroom, hall⟩ := repeatLength_spec mode hin
          have hvalues : (transformed metadata mode).drop index =
              List.replicate (repeatLength metadata index mode - 3 + 3)
                (transformedByte metadata index mode) ++
              (transformed metadata mode).drop (index + repeatLength metadata index mode) := by
            rw [drop_transformed mode hroom, Nat.sub_add_cancel hrun]
            congr 1
            refine List.eq_replicate_iff.mpr ⟨by simp, fun b hb => ?_⟩
            obtain ⟨i, hi, rfl⟩ := List.mem_map.mp hb
            exact hall i (List.mem_range.mp hi)
          rw [hvalues]
          refine .repeated ?_ (ih _ hroom (by omega))
          simp only [maxRepeatLength] at hmax
          omega
        case isFalse =>
          obtain ⟨hpos, hmax, hroom⟩ := literalLength_spec mode hin
          rw [drop_transformed mode hroom]
          refine .literal ?_ ?_ (ih _ hroom (by omega))
          · simp only [maxLiteralLength] at hmax ⊢
            omega
          · simp only [List.length_map, List.length_range]
            omega

/-- The byte before an index, zero at the start. -/
def byteBefore (metadata : Bytes) (index : Nat) : UInt8 :=
  if index = 0 then 0 else byteAt metadata (index - 1)

/-- Pushing the packed bytes gives the metadata back. -/
theorem restored_transformed (mode : UInt8) (n index : Nat) (hn : index + n = metadata.length) :
    restored mode (byteBefore metadata index) ((transformed metadata mode).drop index) =
      metadata.drop index := by
  induction n generalizing index with
  | zero => simp [List.drop_of_length_le, ← hn, restored]
  | succ n ih =>
      have hin : index < metadata.length := by omega
      have hbyte : byteAt metadata index = metadata[index] := by
        simp [byteAt, List.getElem?_eq_getElem hin]
      have hfirst := drop_transformed mode (show index + 1 ≤ metadata.length from hin)
      have hdecoded : (if mode = modeDelta then
            byteBefore metadata index + transformedByte metadata index mode
          else transformedByte metadata index mode) = byteAt metadata index := by
        by_cases hmode : mode = modeDelta
        · simp only [transformedByte, byteBefore, hmode, if_true]
          rw [UInt8.add_comm, UInt8.sub_add_cancel]
        · simp [transformedByte, hmode]
      have hnext : byteAt metadata index = byteBefore metadata (index + 1) := by
        simp [byteBefore]
      rw [hfirst, List.drop_eq_getElem_cons hin]
      simp only [List.range_one, List.map_cons, List.map_nil, Nat.add_zero, List.singleton_append,
        restored, hdecoded]
      rw [hbyte, ← hbyte, hnext, ih (index + 1) (by omega), ← hnext, hbyte]

theorem restored_all (mode : UInt8) : restored mode 0 (transformed metadata mode) = metadata := by
  simpa [byteBefore] using restored_transformed mode metadata.length 0 (Nat.zero_add _)

end Encoder

/-! ## Frames -/

section Frames

variable {metadata stream : Bytes} {mode : UInt8}

/-- The two modes of a stream. -/
def IsMode (mode : UInt8) : Prop := mode = modeDirect ∨ mode = modeDelta

/-- A length below `2^16` is read back from its two bytes. -/
theorem length_bytes {n : Nat} (h : n < 65536) :
    (UInt8.ofNat (n >>> 8)).toNat <<< 8 ||| (UInt8.ofNat n).toNat = n := by
  have hlow : (UInt8.ofNat n).toNat < 2 ^ 8 := (UInt8.ofNat n).toNat_lt
  rw [← Nat.shiftLeft_add_eq_or_of_lt hlow, Nat.shiftLeft_eq, Nat.shiftRight_eq_div_pow]
  simp only [UInt8.toNat_ofNat']
  omega

/-- The header of a frame: what stands before the payload. -/
theorem frame_eq (payload : Bytes) (hsize : payload.length < 65536) :
    ∃ header, frameMessagepackExtension payload = header ++ payload ∧
      messagepackExtension (header ++ payload) = some (header.length, payload.length) := by
  by_cases hshort : payload.length ≤ 255
  · refine ⟨[messagepackExt8, UInt8.ofNat payload.length, heirloomMetadataType], ?_, ?_⟩
    · rw [frameMessagepackExtension, if_pos hshort]
      rfl
    · have hlength : (UInt8.ofNat payload.length).toNat = payload.length := by
        rw [UInt8.toNat_ofNat']
        omega
      rw [messagepackExtension, if_neg (by simp),
        if_pos (show byteAt _ 0 = messagepackExt8 from rfl), if_pos ⟨by simp, rfl⟩]
      exact congrArg some (Prod.ext rfl hlength)
  · refine ⟨[messagepackExt16, UInt8.ofNat (payload.length >>> 8), UInt8.ofNat payload.length,
      heirloomMetadataType], ?_, ?_⟩
    · rw [frameMessagepackExtension, if_neg hshort]
      rfl
    · have hfirst : byteAt ([messagepackExt16, UInt8.ofNat (payload.length >>> 8),
          UInt8.ofNat payload.length, heirloomMetadataType] ++ payload) 0 = messagepackExt16 := rfl
      have hother : ¬ messagepackExt16 = messagepackExt8 := by decide
      rw [messagepackExtension, if_neg (by simp), if_neg (by rwa [hfirst]), if_pos hfirst,
        if_pos ⟨by simp, rfl⟩]
      exact congrArg some (Prod.ext rfl (length_bytes hsize))

/-- The header of a frame is read back. -/
theorem parse_frame {header : Bytes} (hmode : IsMode mode)
    (hheader : messagepackExtension (header ++ formatVersion :: mode :: stream) =
      some (header.length, (formatVersion :: mode :: stream).length)) :
    parseMessagepackHeader (header ++ formatVersion :: mode :: stream) =
      .ok (some (header.length + 2, (header ++ formatVersion :: mode :: stream).length, mode)) := by
  have hversion : byteAt (header ++ formatVersion :: mode :: stream) header.length =
      formatVersion := byteAt_append_right header _ 0
  have hkind : byteAt (header ++ formatVersion :: mode :: stream) (header.length + 1) = mode :=
    byteAt_append_right header _ 1
  have hknown : ¬ (formatVersion ≠ formatVersion ∨ (mode ≠ modeDirect ∧ mode ≠ modeDelta)) := by
    rintro (hne | ⟨hdirect, hdelta⟩)
    · exact hne rfl
    · exact hmode.elim hdirect hdelta
  simp only [parseMessagepackHeader, hheader, hversion, hkind]
  rw [if_neg (by simp), if_neg hknown, List.length_append]

/-- Every frame of the encoder is read back, in both modes. -/
theorem decode_frame (hmode : IsMode mode) (hsize : metadata.length ≤ maxMetadataSize) :
    ∃ start stop, parseMessagepackHeader (frameMessagepackExtension (encodeBlocks metadata mode)) =
        .ok (some (start, stop, mode)) ∧
      decodeBlocks (frameMessagepackExtension (encodeBlocks metadata mode)) start stop mode =
        .ok metadata := by
  have hblocks : Blocks (encodeFrom metadata mode metadata.length 0) (transformed metadata mode) :=
    encodeFrom_blocks metadata.length 0 (Nat.zero_le _) (Nat.sub_le _ _)
  have hbound := hblocks.length_le
  simp only [length_transformed] at hbound
  obtain ⟨header, hframe, hheader⟩ := frame_eq (encodeBlocks metadata mode) (by
    simp only [encodeBlocks, List.length_cons, maxMetadataSize] at hsize ⊢
    omega)
  have hparse := parse_frame hmode hheader
  have hbefore : header ++ formatVersion :: mode :: encodeFrom metadata mode metadata.length 0 =
      header ++ [formatVersion, mode] ++ encodeFrom metadata mode metadata.length 0 := by
    simp
  have hstart : header.length + 2 = (header ++ [formatVersion, mode]).length := by simp
  have hdecode := fun fuel => decodeFrom_blocks mode hblocks (header ++ [formatVersion, mode]) fuel
    .fresh
  obtain ⟨last, hpush⟩ := pushAll_ok mode (transformed metadata mode) .fresh
    (by simpa [Decoder.fresh] using hsize)
  rw [hframe]
  refine ⟨_, _, hparse, ?_⟩
  rw [encodeBlocks, hbefore, hstart, decodeBlocks,
    hdecode _ (by simp only [List.length_append]; omega), hpush]
  simp [Decoder.fresh, restored_all, pure, Except.pure, bind, Except.bind]

/-- The frame of metadata is one of the encoder. -/
theorem framedMetadata_eq (metadata : Bytes) : ∃ mode, IsMode mode ∧
    framedMetadata metadata = frameMessagepackExtension (encodeBlocks metadata mode) := by
  simp only [framedMetadata]
  split
  · exact ⟨modeDelta, .inr rfl, rfl⟩
  · exact ⟨modeDirect, .inl rfl, rfl⟩

theorem decompressMetadata_framed (hsize : metadata.length ≤ maxMetadataSize) :
    decompressMetadata (framedMetadata metadata) = .ok metadata ∧
      isCompressed (framedMetadata metadata) = true := by
  obtain ⟨mode, hmode, hframed⟩ := framedMetadata_eq metadata
  obtain ⟨start, stop, hparse, hdecode⟩ := decode_frame hmode hsize
  rw [hframed]
  exact ⟨by rw [decompressMetadata, hparse]; exact hdecode, by simp [isCompressed, hparse]⟩

/-- What has no header is returned unchanged; everything else stays within the limit. -/
theorem length_decompressMetadata {out : Bytes} (h : decompressMetadata metadata = .ok out) :
    out.length ≤ maxMetadataSize ∨ out = metadata ∧ isCompressed metadata = false := by
  unfold decompressMetadata at h
  split at h
  case h_1 => exact nomatch h
  case h_2 start stop mode hparse =>
    obtain ⟨last, hdecode, rfl⟩ := ok_output h
    exact .inl (length_decodeFrom hdecode (Nat.zero_le _))
  case h_3 hparse =>
    split at h
    case isTrue =>
      simp only [decompressLegacy] at h
      split at h
      · obtain ⟨last, hpush, rfl⟩ := ok_output h
        exact .inl (length_pushAll hpush (Nat.zero_le _))
      · obtain ⟨last, hlegacy, rfl⟩ := ok_output h
        exact .inl (length_legacyFrom hlegacy (Nat.zero_le _))
    case isFalse hlegacy =>
      right
      obtain rfl := Except.ok.inj h
      refine ⟨rfl, ?_⟩
      rw [isCompressed, hparse, Bool.eq_false_iff.mpr hlegacy]
      rfl

/-- The block codec is inverse to itself in both modes; and for bytes of any kind the decoder's
loops end within their rounds, and what it returns stays within the limit unless the bytes had
no header. -/
theorem block_codec_round_trip :
    (∀ metadata : Bytes, metadata ≠ [] → metadata.length ≤ maxMetadataSize →
      ∀ mode, IsMode mode →
        ∃ start stop,
          parseMessagepackHeader (frameMessagepackExtension (encodeBlocks metadata mode)) =
            .ok (some (start, stop, mode)) ∧
          decodeBlocks (frameMessagepackExtension (encodeBlocks metadata mode)) start stop mode =
            .ok metadata) ∧
    ∀ bytes : Bytes,
      (∀ start stop mode rounds d, stop - start ≤ rounds →
        decodeFrom bytes stop mode rounds start d =
          decodeFrom bytes stop mode (stop - start) start d) ∧
      (∀ rounds d, bytes.length ≤ rounds →
        legacyFrom bytes rounds 2 d = legacyFrom bytes bytes.length 2 d) ∧
      ((∃ err, decompressMetadata bytes = .error err) ∨
        ∃ out, decompressMetadata bytes = .ok out ∧
          (out.length ≤ maxMetadataSize ∨ out = bytes ∧ isCompressed bytes = false)) := by
  refine ⟨fun metadata _ hsize mode hmode => decode_frame hmode hsize, fun bytes => ⟨?_, ?_, ?_⟩⟩
  · intro start stop mode rounds d hrounds
    obtain ⟨more, rfl⟩ := Nat.exists_eq_add_of_le hrounds
    exact decodeFrom_rounds more le_rfl
  · intro rounds d hrounds
    obtain ⟨more, rfl⟩ := Nat.exists_eq_add_of_le hrounds
    exact legacyFrom_rounds more (Nat.sub_le _ _)
  · cases hout : decompressMetadata bytes with
    | error err => exact .inl ⟨err, rfl⟩
    | ok out => exact .inr ⟨out, rfl, length_decompressMetadata hout⟩

/-- Four equal bytes and two others: a repeated block and a literal one, which the decoder reads
in two rounds, however many it has left. -/
theorem block_codec_run_and_literal :
    (∃ start stop,
      parseMessagepackHeader (frameMessagepackExtension
          (encodeBlocks [7, 7, 7, 7, 1, 2] modeDelta)) = .ok (some (start, stop, modeDelta)) ∧
      decodeBlocks (frameMessagepackExtension (encodeBlocks [7, 7, 7, 7, 1, 2] modeDelta))
        start stop modeDelta = .ok [7, 7, 7, 7, 1, 2]) ∧
    encodeBlocks [7, 7, 7, 7, 1, 2] modeDirect =
      [formatVersion, modeDirect, 0x81, 7, 1, 1, 2] ∧
    decodeFrom [0x81, 7, 1, 1, 2] 5 modeDirect 9 0 .fresh = .ok ⟨[7, 7, 7, 7, 1, 2], 2⟩ :=
  ⟨block_codec_round_trip.1 [7, 7, 7, 7, 1, 2] (by decide) (by decide) modeDelta (.inr rfl),
    by decide +kernel,
    ((block_codec_round_trip.2 [0x81, 7, 1, 1, 2]).1 0 5 modeDirect 9 .fresh (by decide)).trans
      (by rfl)⟩

end Frames

end Heirloom.Sbt
