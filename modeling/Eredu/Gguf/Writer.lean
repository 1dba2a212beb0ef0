import Eredu.Gguf.Format

/-!
# The GGUF writer

`Writer.write` lays the tensors out, writes header, metadata and descriptors
through the encoder and then the payloads, with padding made by seeking forward.
-/

namespace Eredu.Gguf

open Word Effect Codec UInt32

structure WriterOptions where
  version : Nat
  endian : Endian
  alignment : Nat
  deriving Repr, DecidableEq

structure TensorInput where
  name : String
  dimensions : List Nat
  ggmlType : GgmlType
  data : List UInt8
  /-- Dimensions are 64-bit words. -/
  fits : ∀ dimension ∈ dimensions, dimension ≤ maximum

structure Writer where
  options : WriterOptions
  /-- The alignment is a 64-bit word. -/
  fits : options.alignment ≤ maximum
  version : 1 ≤ options.version ∧ options.version ≤ 3
  alignment : isPowerOfTwo options.alignment

def Writer.new (options : WriterOptions) (fits : options.alignment ≤ maximum) :
    Except GgufError Writer :=
  if version : ¬ (1 ≤ options.version ∧ options.version ≤ 3) then
    .error (.unsupportedVersion options.version)
  else if alignment : options.alignment = 0 ∨ !isPowerOfTwo options.alignment then
    .error (.invalidHeader s!"invalid alignment {options.alignment}")
  else
    .ok ⟨options, fits, not_not.mp version, by simpa using (not_or.mp alignment).2⟩

abbrev WriteM := Effect Codec.Sink GgufError

structure Encoder where
  endian : Endian
  version : Nat
  deriving Repr, DecidableEq

namespace Encoder

def bytes (values : List UInt8) : WriteM Unit := writeAll (.io 0) values

def u8 (value : UInt8) : WriteM Unit := bytes [value]
variable (encoder : Encoder)

def u16 (value : UInt16) : WriteM Unit := bytes (encoder.endian.put 2 value.toNat)
def u32 (value : UInt32) : WriteM Unit := bytes (encoder.endian.put 4 value.toNat)
def u64 (value : UInt64) : WriteM Unit := bytes (encoder.endian.put 8 value.toNat)

/-- The conversion of signed bytes, a buffer at a time. -/
def i8s (values : List Int8) : WriteM Unit := bytes (values.map Int8.toUInt8)

def count (value : Nat) : WriteM Unit :=
  if encoder.version = 1 then
    if value < 2 ^ 32 then encoder.u32 (ofNat value) else fail (.overflow "v1 count")
  else
    encoder.u64 (UInt64.ofNat value)

def dimension (value : Nat) : WriteM Unit := encoder.count value

def string (text : String) : WriteM Unit := do
  encoder.count (asBytes text).length
  bytes (asBytes text)

def bool (value : Bool) : WriteM Unit := u8 (if value then 1 else 0)

mutual

def array (encoder : Encoder) (whole : MetadataArray) : WriteM Unit := do
  encoder.u32 (ofNat whole.typeCode)
  encoder.count whole.len
  match whole with
  | .uint8 values => bytes values
  | .int8 values => i8s values
  | .uint16 values => values.forM encoder.u16
  | .int16 values => values.forM fun value => encoder.u16 value.toUInt16
  | .uint32 values => values.forM encoder.u32
  | .int32 values => values.forM fun value => encoder.u32 value.toUInt32
  | .float32 bits => bits.forM encoder.u32
  | .bool values => values.forM bool
  | .string values => values.forM encoder.string
  | .array values => encoder.arrays values
  | .uint64 values => values.forM encoder.u64
  | .int64 values => values.forM fun value => encoder.u64 value.toUInt64
  | .float64 bits => bits.forM encoder.u64

def arrays (encoder : Encoder) : List MetadataArray → WriteM Unit
  | [] => pure ()
  | first :: rest => do
    encoder.array first
    encoder.arrays rest

end

def value : MetadataValue → WriteM Unit
  | .uint8 value => u8 value
  | .int8 value => u8 value.toUInt8
  | .uint16 value => encoder.u16 value
  | .int16 value => encoder.u16 value.toUInt16
  | .uint32 value => encoder.u32 value
  | .int32 value => encoder.u32 value.toUInt32
  | .float32 bits => encoder.u32 bits
  | .bool value => bool value
  | .string value => encoder.string value
  | .array value => encoder.array value
  | .uint64 value => encoder.u64 value
  | .int64 value => encoder.u64 value.toUInt64
  | .float64 bits => encoder.u64 bits

def entry (key : String) (value : MetadataValue) : WriteM Unit := do
  if longestKey < (asBytes key).length ∨ !isAscii key then
    fail (.invalidMetadata key "key must be ASCII and at most 65535 bytes")
  else
    encoder.string key
    encoder.u32 (ofNat value.typeCode)
    encoder.value value

def descriptor (tensor : TensorInput) (offset : Nat) : WriteM Unit := do
  encoder.string tensor.name
  if tensor.dimensions.length < 2 ^ 32 then
    encoder.u32 (ofNat tensor.dimensions.length)
    tensor.dimensions.forM encoder.dimension
    encoder.u32 tensor.ggmlType.code
    encoder.u64 (UInt64.ofNat offset)
  else
    fail (.overflow "rank")

end Encoder

def withAlignment (metadata : Metadata) (alignment : Nat) : Except GgufError Metadata :=
  let mismatch := .error (.invalidMetadata "general.alignment" "does not match writer alignment")
  match metadata["general.alignment"]? with
  | none =>
    if alignment ≠ defaultAlignment then
      .ok (metadata.insert "general.alignment"
        (if alignment < 2 ^ 32 then .uint32 (ofNat alignment)
          else .uint64 (UInt64.ofNat alignment)))
    else
      .ok metadata
  | some (.uint32 value) => if value.toNat = alignment then .ok metadata else mismatch
  | some (.uint64 value) => if value.toNat = alignment then .ok metadata else mismatch
  | some _ => mismatch

def expectedBytes (tensor : TensorInput) : Except GgufError Nat := do
  let elements ← product "tensor elements" tensor.dimensions
  let (block, bytes) ← tensor.ggmlType.blockAndBytes
  if elements ≠ 0 ∧ (tensor.dimensions.headD 1 % block ≠ 0 ∨ elements % block ≠ 0) then
    .error (.invalidTensor tensor.name s!"shape is not divisible by block size {block}")
  else
    orOverflow "tensor bytes" (checkedMul (elements / block) bytes)

def layout (alignment : Nat) : List String → Nat → List TensorInput → Except GgufError (List Nat)
  | _, _, [] => .ok []
  | names, next, tensor :: tensors => do
    if tensor.name.isEmpty then
      .error (.invalidTensor tensor.name "empty name")
    else if names.contains tensor.name then
      .error (.duplicateTensor tensor.name)
    else
      let expected ← expectedBytes tensor
      if expected ≠ tensor.data.length then
        .error (.invalidTensor tensor.name
          s!"payload has {tensor.data.length} bytes, expected {expected}")
      else
        let offset ← alignUp next alignment
        let next ← orOverflow "tensor offsets" (checkedAdd offset expected)
        let offsets ← layout alignment (names ++ [tensor.name]) next tensors
        return offset :: offsets

@[irreducible] def maximumSeek : Nat := 2 ^ 63 - 1

theorem maximumSeek_pos : 0 < maximumSeek := by
  unfold maximumSeek
  decide

/-- The loop of `extend_with_zeros`, for a number of rounds. -/
def seekFar : Nat → Nat → WriteM Nat
  | 0, amount => pure amount
  | rounds + 1, amount =>
    if maximumSeek < amount then do
      seekForward (.io 0) maximumSeek
      seekFar rounds (amount - maximumSeek)
    else
      pure amount

def extendWithZeros (amount : Nat) : WriteM Unit := do
  if amount = 0 then
    return ()
  else
    let rest ← seekFar (amount / maximumSeek) amount
    if 1 < rest then
      seekForward (.io 0) (rest - 1)
    writeAll (.io 0) [0]

def payloads (dataStart : Nat) : Nat → List (TensorInput × Nat) → WriteM Unit
  | _, [] => pure ()
  | relative, (tensor, offset) :: rest => do
    extendWithZeros (offset - relative)
    writeAll (.io (dataStart + offset)) tensor.data
    payloads dataStart (offset + tensor.data.length) rest

def Writer.write (writer : Writer) (metadata : Metadata) (tensors : List TensorInput) :
    WriteM Unit := do
  let options := writer.options
  let metadata ← ofResult (withAlignment metadata options.alignment)
  let offsets ← ofResult (layout options.alignment [] 0 tensors)
  writeAll (.io 0) (magicOf options.endian)
  let encoder : Encoder := ⟨options.endian, options.version⟩
  encoder.u32 (ofNat options.version)
  encoder.count tensors.length
  encoder.count metadata.size
  metadata.toList.forM fun (key, value) => encoder.entry key value
  (tensors.zip offsets).forM fun (tensor, offset) => encoder.descriptor tensor offset
  let position := (← get).position
  let dataStart ← ofResult (alignUp position options.alignment)
  extendWithZeros (dataStart - position)
  payloads dataStart 0 (tensors.zip offsets)

def Writer.written (writer : Writer) (metadata : Metadata) (tensors : List TensorInput) :
    Except (Fault GgufError) (List UInt8) :=
  match (writer.write metadata tensors).outcome ⟨[], 0⟩ with
  | (.ok (), sink) => .ok sink.contents
  | (.error fault, _) => .error fault

end Eredu.Gguf
