import Eredu.Gguf.Format

/-!
# The GGUF reader

`Reader.withLimits` parses the header, the metadata and the tensor descriptors of
an untrusted file under resource limits and checks where the tensors lie.

Array nesting is a recursion of the parser. The model makes its stack explicit:
`array` has a number of frames left and panics when it needs one more, so that the
depth of the recursion is a matter of proof. The depth itself is a 32-bit number
and increasing it is not checked in the source, which the model shows as a panic.
Buffers are allocated for the counts that the file declares, before anything is
read into them: a count that no allocation can hold is a panic, and memory for all
others is taken to be available.
-/

namespace Eredu.Gguf

open Effect MetadataValue MetadataArray Codec UInt64 Word

structure Limits where
  maxMetadataEntries : UInt64
  maxArrayElements : UInt64
  maxTensorCount : UInt64
  maxRank : UInt32
  maxStringBytes : UInt64
  maxAllocationBytes : UInt64
  maxMetadataDepth : UInt32
  deriving Repr, DecidableEq

def Limits.default : Limits where
  maxMetadataEntries := 1000000
  maxArrayElements := 16000000
  maxTensorCount := 1000000
  maxRank := 8
  maxStringBytes := (256 : UInt64) <<< 20
  maxAllocationBytes := (2 : UInt64) <<< 30
  maxMetadataDepth := 16

abbrev ParseM := Effect Codec.Cursor GgufError

def checkLimit (resource : String) (actual limit : Nat) : Except GgufError Unit :=
  if limit < actual then .error (.limit resource actual limit) else .ok ()

/-- An addition that the source does not check: overflow is a panic. -/
def addUnchecked {σ : Type} (maximum left right : Nat) : Effect σ GgufError Nat :=
  if left + right ≤ maximum then pure (left + right)
  else abort "attempt to add with overflow"

def maximumDepth : Nat := 2 ^ 32 - 1

/-- The largest `isize`: no allocation has more bytes. -/
def largestAllocation : Nat := 2 ^ 63 - 1

/-- `Vec::with_capacity` and `vec![0; count]` for items of a size. -/
def withCapacity {σ : Type} (size count : Nat) : Effect σ GgufError Unit :=
  if count * size ≤ largestAllocation then pure () else abort "capacity overflow"

structure Parser where
  endian : Endian
  version : Nat
  limits : Limits
  deriving Repr, DecidableEq

variable (parser : Parser)

namespace Parser

def pos : ParseM Nat := do return (← get).position

def exact (size : Nat) : ParseM (List UInt8) := readExact .io size

/-- `u8`, `u16`, `u32` and `u64`, by the width in bytes. -/
def word (width : Nat) : ParseM Nat := do
  let bytes ← exact width
  return parser.endian.take bytes

def u8 : ParseM UInt8 := do
  let bytes ← exact 1
  return bytes.headD 0

def u16 : ParseM UInt16 := UInt16.ofNat <$> parser.word 2
def u32 : ParseM UInt32 := UInt32.ofNat <$> parser.word 4
def u64 : ParseM UInt64 := ofNat <$> parser.word 8

def count : ParseM Nat :=
  if parser.version = 1 then UInt32.toNat <$> parser.u32 else toNat <$> parser.u64

def dimension : ParseM Nat := parser.count

def string : ParseM String := do
  let length ← parser.count
  ofResult (checkLimit "string bytes" length parser.limits.maxStringBytes.toNat)
  withCapacity 1 length
  let bytes ← exact length
  match Utf8.decode bytes with
  | some text => return String.ofList text
  | none => fail (.invalidHeader "invalid UTF-8 string")

def bool : ParseM Bool := do
  let byte ← u8
  match byte.toNat with
  | 0 => return false
  | 1 => return true
  | other => fail (.invalidHeader s!"invalid boolean {other}")

/-- The macro `vals!`, with the size of an item in memory. -/
def vals {α : Type} (size : Nat) (make : List α → MetadataArray) (item : ParseM α) (length : Nat) :
    ParseM MetadataArray := do
  withCapacity size length
  make <$> times item length

def arrayItems (nested : ParseM MetadataArray) (length : Nat) :
    Nat → ParseM MetadataArray
  | 0 => vals 1 uint8 u8 length
  | 1 => vals 1 int8 (UInt8.toInt8 <$> u8) length
  | 2 => vals 2 uint16 parser.u16 length
  | 3 => vals 2 int16 (UInt16.toInt16 <$> parser.u16) length
  | 4 => vals 4 uint32 parser.u32 length
  | 5 => vals 4 int32 (UInt32.toInt32 <$> parser.u32) length
  | 6 => vals 4 float32 parser.u32 length
  | 7 => vals 1 MetadataArray.bool bool length
  | 8 => vals 24 MetadataArray.string parser.string length
  | 9 => vals 32 array nested length
  | 10 => vals 8 uint64 parser.u64 length
  | 11 => vals 8 int64 (toInt64 <$> parser.u64) length
  | 12 => vals 8 float64 parser.u64 length
  | other => fail (.unsupportedMetadataType other)

def array (parser : Parser) : Nat → Nat → ParseM MetadataArray
  | frames, depth => do
    if parser.limits.maxMetadataDepth.toNat < depth then
      fail (.limit "metadata nesting depth" depth parser.limits.maxMetadataDepth.toNat)
    else match frames with
    | 0 => abort "stack overflow"
    | frames + 1 =>
      let type ← parser.u32
      let length ← parser.count
      ofResult (checkLimit "metadata array elements" length parser.limits.maxArrayElements.toNat)
      parser.arrayItems (do
        let deeper ← addUnchecked maximumDepth depth 1
        parser.array frames deeper) length type.toNat

def value (frames type depth : Nat) : ParseM MetadataValue :=
  match type with
  | 0 => uint8 <$> u8
  | 1 => (int8 ∘ UInt8.toInt8) <$> u8
  | 2 => uint16 <$> parser.u16
  | 3 => (int16 ∘ UInt16.toInt16) <$> parser.u16
  | 4 => uint32 <$> parser.u32
  | 5 => (int32 ∘ UInt32.toInt32) <$> parser.u32
  | 6 => float32 <$> parser.u32
  | 7 => MetadataValue.bool <$> bool
  | 8 => MetadataValue.string <$> parser.string
  | 9 => do
    let deeper ← addUnchecked maximumDepth depth 1
    MetadataValue.array <$> parser.array frames deeper
  | 10 => uint64 <$> parser.u64
  | 11 => (int64 ∘ toInt64) <$> parser.u64
  | 12 => float64 <$> parser.u64
  | other => fail (.unsupportedMetadataType other)

def entry (frames : Nat) (metadata : Metadata) : ParseM Metadata := do
  let key ← parser.string
  if longestKey < (asBytes key).length ∨ !isAscii key then
    fail (.invalidMetadata key "keys must be ASCII and at most 65535 bytes")
  else
    let type ← parser.u32
    let value ← parser.value frames type.toNat 0
    if metadata.contains key then
      fail (.duplicateMetadata key)
    else
      return metadata.insert key value

def entries (parser : Parser) (frames : Nat) : Nat → Metadata → ParseM Metadata
  | 0, metadata => pure metadata
  | remaining + 1, metadata => do
    let metadata ← parser.entry frames metadata
    parser.entries frames remaining metadata

end Parser

structure RawTensor where
  name : String
  dimensions : List Nat
  ggmlType : GgmlType
  relativeOffset : Nat
  deriving Repr, DecidableEq

namespace Parser

/-- One round of the descriptor loop. The names seen so far are those of the tensors read. -/
def rawTensor (seen : List RawTensor) : ParseM RawTensor := do
  let name ← parser.string
  if name.isEmpty then
    fail (.invalidTensor name "empty tensor name")
  else if seen.any (·.name == name) then
    fail (.duplicateTensor name)
  else
    let rank ← parser.u32
    if parser.limits.maxRank < rank then
      fail (.limit "tensor rank" rank.toNat parser.limits.maxRank.toNat)
    else
      let dimensions ← times parser.dimension rank.toNat
      let type ← parser.u32
      let relativeOffset ← parser.u64
      return ⟨name, dimensions, .fromCode type, relativeOffset.toNat⟩

def rawTensors (parser : Parser) : Nat → List RawTensor → ParseM (List RawTensor)
  | 0, seen => pure seen
  | remaining + 1, seen => do
    let raw ← parser.rawTensor seen
    parser.rawTensors remaining (seen ++ [raw])

end Parser

structure Reader where
  contents : List UInt8
  endian : Endian
  version : Nat
  alignment : Nat
  metadata : Metadata
  tensors : List TensorDescriptor
  limits : Limits

/-- The `general.alignment` entry as the reader understands it. -/
def readAlignment (metadata : Metadata) : Except GgufError Nat :=
  match metadata["general.alignment"]? with
  | none => .ok defaultAlignment
  | some (.uint32 value) => .ok value.toNat
  | some (.uint64 value) => .ok value.toNat
  | some _ => .error (.invalidMetadata "general.alignment" "must be uint32 or uint64")

/-- Where a tensor lies and how long it is: the second loop over the descriptors. -/
def describe (raw : RawTensor) (alignment dataStart fileSize : Nat) :
    Except GgufError TensorDescriptor := do
  if raw.relativeOffset % alignment ≠ 0 then
    .error (.invalidTensor raw.name
      s!"relative offset {raw.relativeOffset} is not aligned to {alignment}")
  else
    let elements ← product "tensor element count" raw.dimensions
    let (block, bytes) ← raw.ggmlType.blockAndBytes
    if elements ≠ 0 ∧ (raw.dimensions.headD 1 % block ≠ 0 ∨ elements % block ≠ 0) then
      .error (.invalidTensor raw.name
        s!"shape {raw.dimensions} is not divisible by block size {block}")
    else
      let byteLen ← orOverflow "tensor byte length" (checkedMul (elements / block) bytes)
      let dataOffset ← orOverflow "tensor offset" (checkedAdd dataStart raw.relativeOffset)
      let last ← orOverflow "tensor end offset" (checkedAdd dataOffset byteLen)
      if fileSize < last then
        .error (.invalidTensor raw.name
          s!"data range {dataOffset}..{last} exceeds file size {fileSize}")
      else
        .ok ⟨raw.name, raw.dimensions, raw.ggmlType, raw.relativeOffset, dataOffset, byteLen⟩

structure DataRange where
  start : Nat
  finish : Nat
  name : String
  deriving Repr, DecidableEq

def dataRange (tensor : TensorDescriptor) : ParseM DataRange := do
  let finish ← addUnchecked maximum tensor.dataOffset tensor.byteLen
  return ⟨tensor.dataOffset, finish, tensor.name⟩

def checkNeighbours : List DataRange → Except GgufError Unit
  | first :: second :: rest =>
    if second.start < first.finish then
      .error (.invalidTensor second.name s!"data overlaps tensor \"{first.name}\"")
    else
      checkNeighbours (second :: rest)
  | _ => .ok ()

variable (reader : Reader)

/-- The end of `Reader::with_file_size`: where the tensors lie, once all descriptors are read. -/
def Reader.place (raw : List RawTensor) (fileSize : Nat) : ParseM Reader := do
  let descriptorEnd ← Parser.pos
  let dataStart ← ofResult (alignUp descriptorEnd reader.alignment)
  if raw.length ≠ 0 ∧ fileSize < dataStart then
    fail (.invalidHeader "tensor data starts beyond end of file")
  else
    withCapacity 80 raw.length
    let tensors ← ofResult (raw.mapM (describe · reader.alignment dataStart fileSize))
    let ranges ← (tensors.filter (·.byteLen ≠ 0)).mapM dataRange
    ofResult (checkNeighbours (ranges.mergeSort (·.start ≤ ·.start)))
    return { reader with tensors }

def endianOf (magic : List UInt8) : Except GgufError Endian :=
  if magic = magicLittle then .ok .little
  else if magic = magicBig then .ok .big
  else .error (.invalidHeader s!"invalid magic {magic}")

/-- `Reader::with_file_size` on a file read from its start. -/
def Reader.parse (frames : Nat) (limits : Limits) (contents : List UInt8) (fileSize : Nat) :
    ParseM Reader := do
  let magic ← Parser.exact 4
  let endian ← ofResult (endianOf magic)
  let version ← Parser.u32 ⟨endian, 0, limits⟩
  if ¬ (1 ≤ version.toNat ∧ version.toNat ≤ 3) then
    fail (.unsupportedVersion version.toNat)
  else
    let parser : Parser := ⟨endian, version.toNat, limits⟩
    let tensorCount ← parser.count
    ofResult (checkLimit "tensor count" tensorCount limits.maxTensorCount.toNat)
    let metadataCount ← parser.count
    ofResult (checkLimit "metadata entries" metadataCount limits.maxMetadataEntries.toNat)
    let metadata ← parser.entries frames metadataCount ∅
    let alignment ← ofResult (readAlignment metadata)
    if alignment = 0 ∨ !isPowerOfTwo alignment then
      fail (.invalidHeader s!"invalid alignment {alignment}")
    else
      -- The hash set of the names needs fewer bytes than the vector of the descriptors.
      withCapacity 64 tensorCount
      let raw ← parser.rawTensors tensorCount []
      Reader.place ⟨contents, endian, version.toNat, alignment, metadata, [], limits⟩ raw fileSize

/-- The reader on a byte string, with a number of stack frames for nested arrays, and the cursor
behind the descriptors. -/
def Reader.run (frames : Nat) (contents : List UInt8) (limits : Limits) :
    Except (Fault GgufError) Reader × Codec.Cursor :=
  (Reader.parse frames limits contents contents.length).outcome ⟨contents, 0⟩

/-- `Reader::with_limits`, with as many frames as the depth limit asks for. -/
def Reader.withLimits (contents : List UInt8) (limits : Limits) : Except (Fault GgufError) Reader :=
  (Reader.run limits.maxMetadataDepth.toNat contents limits).1

def Reader.readAt (offset length : Nat) : Except GgufError (List UInt8) :=
  if offset + length ≤ reader.contents.length ∨ length = 0 then
    .ok ((reader.contents.drop offset).take length)
  else
    .error (.io offset)

def Reader.readRaw (tensor : TensorDescriptor) : Except GgufError (List UInt8) := do
  checkLimit "tensor allocation" tensor.byteLen reader.limits.maxAllocationBytes.toNat
  reader.readAt tensor.dataOffset tensor.byteLen

open Codec (Reads)

section Words

variable (parser : Parser)

theorem reads_word {width value : Nat} (hf : value < 256 ^ width) :
    Reads (parser.word width) (parser.endian.put width value) value := by
  apply (reads_readExact _ (parser.endian.length_put width value)).then_pure
  rw [parser.endian.take_put hf]
  exact reads_pure value

theorem reads_u8 (value : UInt8) : Reads Parser.u8 [value] value :=
  (reads_readExact _ rfl).then_pure (reads_pure value)

theorem reads_u16 (value : UInt16) : Reads parser.u16 (parser.endian.put 2 value.toNat) value := by
  have hr := (reads_word parser (show value.toNat < 256 ^ 2 from value.toNat_lt)).map UInt16.ofNat
  rwa [UInt16.ofNat_toNat] at hr

theorem reads_u32 (value : UInt32) : Reads parser.u32 (parser.endian.put 4 value.toNat) value := by
  have hr := (reads_word parser (show value.toNat < 256 ^ 4 from value.toNat_lt)).map UInt32.ofNat
  rwa [UInt32.ofNat_toNat] at hr

theorem reads_u64 (value : UInt64) : Reads parser.u64 (parser.endian.put 8 value.toNat) value := by
  have hr := (reads_word parser (show value.toNat < 256 ^ 8 from value.toNat_lt)).map UInt64.ofNat
  rwa [UInt64.ofNat_toNat] at hr

/-- A text within the limits, and within the bytes that a string can hold. -/
def TextWithin (limits : Limits) (text : String) : Prop :=
  (asBytes text).length ≤ limits.maxStringBytes.toNat ∧ (asBytes text).length ≤ largestAllocation

/-- The bytes of a count: four of them in the first version, eight since then. -/
def countBytes (endian : Endian) (version value : Nat) : List UInt8 :=
  endian.put (if version = 1 then 4 else 8) value

def Countable (version value : Nat) : Prop := value < 2 ^ 64 ∧ (version = 1 → value < 2 ^ 32)

theorem reads_count {value : Nat} (hc : Countable parser.version value) :
    Reads parser.count (countBytes parser.endian parser.version value) value := by
  unfold Parser.count countBytes
  split
  · next hf =>
    have hr := (reads_u32 parser (UInt32.ofNat value)).map UInt32.toNat
    rwa [UInt32.toNat_ofNat_of_lt' (hc.2 hf)] at hr
  · have hr := (reads_u64 parser (ofNat value)).map toNat
    rwa [toNat_ofNat_of_lt' hc.1] at hr

theorem reads_checkLimit {resource : String} {actual limit : Nat} (hw : actual ≤ limit) :
    Reads (ofResult (checkLimit resource actual limit) : ParseM Unit) [] () := by
  rw [checkLimit, if_neg (not_lt.mpr hw)]
  exact reads_pure ()

theorem reads_withCapacity {size count : Nat} (fits : count * size ≤ largestAllocation) :
    Reads (withCapacity size count : ParseM Unit) [] () := by
  rw [withCapacity, if_pos fits]
  exact reads_pure ()

def stringBytes (endian : Endian) (version : Nat) (text : String) : List UInt8 :=
  countBytes endian version (asBytes text).length ++ asBytes text

theorem reads_string {text : String} (hc : Countable parser.version (asBytes text).length)
    (hw : TextWithin parser.limits text) :
    Reads parser.string (stringBytes parser.endian parser.version text) text := by
  apply (reads_count parser hc).bind
  apply (reads_checkLimit hw.1).skip
  apply (reads_withCapacity (by rw [Nat.mul_one]; exact hw.2)).skip
  apply (reads_readExact _ rfl).then_pure
  rw [asBytes, Utf8.decode_encode]
  dsimp only
  rw [String.ofList_toList]
  exact reads_pure text

end Words

end Eredu.Gguf
