import Heirloom.Types

/-!
# Compression of credential metadata

The functions of `compression.rs`. Metadata is packed into blocks, a run of equal
bytes or a stretch of literal ones, either as it is or as the differences of
neighbouring bytes, and the blocks are framed as a MessagePack extension. What
would not become smaller is returned unchanged, and an older format stays
readable, so that the first bytes alone tell which of the three a value is.

An index is a `Nat`: no metadata the contract holds comes near `u32::MAX` bytes.
A loop over an index takes the number of bytes left as fuel, which it cannot use up.
-/

namespace Heirloom.Sbt

/-! ## Constants -/

def maxMetadataSize : Nat := 4096

def messagepackExt8 : UInt8 := 0xC7
def messagepackExt16 : UInt8 := 0xC8
def heirloomMetadataType : UInt8 := 0x45
def formatVersion : UInt8 := 1
def modeDirect : UInt8 := 0
def modeDelta : UInt8 := 1
def legacyMagic : UInt8 := 0xC1
def maxLiteralLength : Nat := 128
def maxRepeatLength : Nat := 130

inductive CompressionError
  | invalidCompressedData
  | outputTooLarge
deriving DecidableEq

/-- `bytes.get(index).unwrap()`, at an index below the length. -/
def byteAt (bytes : Bytes) (index : Nat) : UInt8 := bytes.getD index 0

/-! ## Encoding -/

/-- The byte that is packed at an index: the byte itself, or its difference from the
one before. -/
def transformedByte (metadata : Bytes) (index : Nat) (mode : UInt8) : UInt8 :=
  let current := byteAt metadata index
  if mode = modeDelta then
    let previous := if index = 0 then 0 else byteAt metadata (index - 1)
    current - previous
  else current

/-- The loop of `repeatLength`. -/
def repeatFrom (metadata : Bytes) (start : Nat) (mode expected : UInt8) : Nat → Nat → Nat
  | 0, length => length
  | fuel + 1, length =>
      if length < maxRepeatLength ∧ start + length < metadata.length ∧
          transformedByte metadata (start + length) mode = expected then
        repeatFrom metadata start mode expected fuel (length + 1)
      else length

/-- How often the byte at `start` stands there in a row. -/
def repeatLength (metadata : Bytes) (start : Nat) (mode : UInt8) : Nat :=
  let expected := transformedByte metadata start mode
  repeatFrom metadata start mode expected maxRepeatLength 1

/-- The loop that measures a stretch of literal bytes: it ends before the next run. -/
def literalFrom (metadata : Bytes) (mode : UInt8) : Nat → Nat → Nat → Nat
  | 0, _, literalLength => literalLength
  | fuel + 1, index, literalLength =>
      if index < metadata.length ∧ literalLength < maxLiteralLength then
        if 0 < literalLength ∧ 3 ≤ repeatLength metadata index mode then literalLength
        else literalFrom metadata mode fuel (index + 1) (literalLength + 1)
      else literalLength

/-- The loop of `encodeBlocks`, one block a round. -/
def encodeFrom (metadata : Bytes) (mode : UInt8) : Nat → Nat → Bytes
  | 0, _ => []
  | fuel + 1, index =>
      if index < metadata.length then
        let repeated := repeatLength metadata index mode
        if 3 ≤ repeated then
          (0x80 ||| UInt8.ofNat (repeated - 3)) :: transformedByte metadata index mode ::
            encodeFrom metadata mode fuel (index + repeated)
        else
          let literalLength := literalFrom metadata mode maxLiteralLength index 0
          UInt8.ofNat (literalLength - 1) ::
            ((List.range literalLength).map fun i => transformedByte metadata (index + i) mode) ++
            encodeFrom metadata mode fuel (index + literalLength)
      else []

def encodeBlocks (metadata : Bytes) (mode : UInt8) : Bytes :=
  formatVersion :: mode :: encodeFrom metadata mode metadata.length 0

def frameMessagepackExtension (payload : Bytes) : Bytes :=
  if payload.length ≤ 255 then
    messagepackExt8 :: UInt8.ofNat payload.length :: heirloomMetadataType :: payload
  else
    messagepackExt16 :: UInt8.ofNat (payload.length >>> 8) :: UInt8.ofNat payload.length ::
      heirloomMetadataType :: payload

/-- The extension that stands for metadata: in delta mode if that is shorter. -/
def framedMetadata (metadata : Bytes) : Bytes :=
  let direct := encodeBlocks metadata modeDirect
  let delta := encodeBlocks metadata modeDelta
  let payload := if delta.length < direct.length then delta else direct
  frameMessagepackExtension payload

def compressMetadata (metadata : Bytes) : Bytes :=
  if metadata = [] ∨ maxMetadataSize < metadata.length then metadata
  else
    let framed := framedMetadata metadata
    if framed.length < metadata.length then framed else metadata

/-! ## Decoding -/

/-- Where the payload of an extension of this format starts, and its length. -/
def messagepackExtension (metadata : Bytes) : Option (Nat × Nat) :=
  if metadata = [] then none
  else if byteAt metadata 0 = messagepackExt8 then
    if 3 ≤ metadata.length ∧ byteAt metadata 2 = heirloomMetadataType then
      some (3, (byteAt metadata 1).toNat)
    else none
  else if byteAt metadata 0 = messagepackExt16 then
    if 4 ≤ metadata.length ∧ byteAt metadata 3 = heirloomMetadataType then
      some (4, (byteAt metadata 1).toNat <<< 8 ||| (byteAt metadata 2).toNat)
    else none
  else none

/-- The range of the blocks with their mode, if the first bytes are those of an
extension of this format. Such an extension that is not well formed is an error. -/
def parseMessagepackHeader (metadata : Bytes) :
    Except CompressionError (Option (Nat × Nat × UInt8)) :=
  match messagepackExtension metadata with
  | none => .ok none
  | some (payloadStart, payloadLength) =>
      let payloadEnd := payloadStart + payloadLength
      if payloadLength < 2 ∨ payloadEnd ≠ metadata.length then .error .invalidCompressedData
      else
        let version := byteAt metadata payloadStart
        let mode := byteAt metadata (payloadStart + 1)
        if version ≠ formatVersion ∨ (mode ≠ modeDirect ∧ mode ≠ modeDelta) then
          .error .invalidCompressedData
        else .ok (some (payloadStart + 2, payloadEnd, mode))

/-- What a decoder has written, and the byte it wrote last. -/
structure Decoder where
  output : Bytes
  previous : UInt8
deriving DecidableEq

def Decoder.fresh : Decoder := ⟨[], 0⟩

def pushDecoded (mode : UInt8) (d : Decoder) (value : UInt8) : Except CompressionError Decoder :=
  if maxMetadataSize ≤ d.output.length then .error .outputTooLarge
  else
    let decoded := if mode = modeDelta then d.previous + value else value
    .ok ⟨d.output ++ [decoded], decoded⟩

/-- The `for` loops around `pushDecoded`. -/
def pushAll (mode : UInt8) : Bytes → Decoder → Except CompressionError Decoder
  | [], d => .ok d
  | value :: values, d => pushDecoded mode d value >>= pushAll mode values

/-- The loop of `decodeBlocks`, one block a round. -/
def decodeFrom (encoded : Bytes) (stop : Nat) (mode : UInt8) :
    Nat → Nat → Decoder → Except CompressionError Decoder
  | 0, _, d => .ok d
  | fuel + 1, index, d =>
      if index < stop then
        let token := byteAt encoded index
        if token &&& 0x80 ≠ 0 then
          if stop ≤ index + 1 then .error .invalidCompressedData
          else
            let count := (token.toNat &&& 0x7F) + 3
            let value := byteAt encoded (index + 1)
            pushAll mode (List.replicate count value) d >>=
              decodeFrom encoded stop mode fuel (index + 2)
        else
          let count := (token.toNat &&& 0x7F) + 1
          if stop < index + 1 + count then .error .invalidCompressedData
          else
            pushAll mode ((List.range count).map fun i => byteAt encoded (index + 1 + i)) d >>=
              decodeFrom encoded stop mode fuel (index + 1 + count)
      else .ok d

def decodeBlocks (encoded : Bytes) (index stop : Nat) (mode : UInt8) :
    Except CompressionError Bytes := do
  let d ← decodeFrom encoded stop mode (stop - index) index .fresh
  pure d.output

def isLegacyCompressed (metadata : Bytes) : Bool :=
  decide (2 ≤ metadata.length) && byteAt metadata 0 == legacyMagic &&
    (byteAt metadata 1 == modeDirect || byteAt metadata 1 == modeDelta)

/-- The run-length loop of `decompressLegacy`, one pair of count and value a round. -/
def legacyFrom (metadata : Bytes) : Nat → Nat → Decoder → Except CompressionError Decoder
  | 0, _, d => .ok d
  | fuel + 1, index, d =>
      if index < metadata.length then
        if metadata.length ≤ index + 1 then .error .invalidCompressedData
        else
          let count := byteAt metadata index
          let value := byteAt metadata (index + 1)
          if count = 0 then .error .invalidCompressedData
          else
            pushAll modeDirect (List.replicate count.toNat value) d >>=
              legacyFrom metadata fuel (index + 2)
      else .ok d

def decompressLegacy (metadata : Bytes) : Except CompressionError Bytes := do
  let d ←
    if byteAt metadata 1 = modeDelta then pushAll modeDelta (metadata.drop 2) .fresh
    else legacyFrom metadata metadata.length 2 .fresh
  pure d.output

def decompressMetadata (metadata : Bytes) : Except CompressionError Bytes :=
  match parseMessagepackHeader metadata with
  | .error err => .error err
  | .ok (some (payloadStart, payloadEnd, mode)) =>
      decodeBlocks metadata payloadStart payloadEnd mode
  | .ok none => if isLegacyCompressed metadata then decompressLegacy metadata else .ok metadata

def isCompressed (metadata : Bytes) : Bool :=
  (match parseMessagepackHeader metadata with
    | .ok (some _) => true
    | _ => false) || isLegacyCompressed metadata

end Heirloom.Sbt
