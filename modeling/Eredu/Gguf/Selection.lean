import Eredu.Foundation.RowMajor
import Eredu.Gguf.Reader

/-!
# Reading a part of a tensor

A plan names the byte ranges that hold a selection: `TensorSelectionPlan` for
indices along one axis, `DenseTensorSpanPlan` for an interval of the elements.
`readRawPlan` and `readDenseSpan` read exactly those ranges.

A `usize` has 64 bits here. The span iterator adds and multiplies without checks,
which the model shows as panics; the sums inside the constructors stay below the
selected dimension.
-/

namespace Eredu.Gguf

open Word

/-- A nonempty selection along one axis of the row-major shape. -/
inductive TensorSelection where
  | range (axis start finish : Nat)
  | indices (axis : Nat) (indices : List Nat)
  deriving Repr, DecidableEq

def TensorSelection.axis : TensorSelection → Nat
  | .range axis _ _ => axis
  | .indices axis _ => axis

structure SelectionAlignment where
  blockValues : Nat
  blockBytes : Nat
  selectedAxisMultiple : Nat
  deriving Repr, DecidableEq

structure EncodedSpan where
  offset : Nat
  byteLen : Nat
  deriving Repr, DecidableEq

structure RelativeEncodedSpan where
  offset : Nat
  byteLen : Nat
  deriving Repr, DecidableEq

structure TensorSelectionPlan where
  selection : TensorSelection
  ggufDimension : Nat
  alignment : SelectionAlignment
  selectedDescriptor : TensorDescriptor
  sourceDataOffset : Nat
  repetitionStride : Nat
  repetitions : Nat
  relativeSpans : List RelativeEncodedSpan
  encodedByteLen : Nat
  deriving Repr, DecidableEq

/-- One round of `coalesce_indices`; the ranges are a start and a count, the last one first. -/
def coalesceIndex : List (Nat × Nat) → Nat → List (Nat × Nat)
  | (start, count) :: ranges, index =>
    if start + count = index then (start, count + 1) :: ranges
    else (index, 1) :: (start, count) :: ranges
  | [], index => [(index, 1)]

def coalesceIndices (indices : List Nat) : List (Nat × Nat) :=
  (indices.foldl coalesceIndex []).reverse

variable (spans : List RelativeEncodedSpan) (tensor : TensorDescriptor)

def encodedBlock (axis multiple : Nat) (chunk : List Nat) : Except GgufError Nat :=
  let start := chunk.headD 0
  if start % multiple ≠ 0 ∨ chunk ≠ List.range' start multiple then
    .error (.invalidTensor tensor.name
      s!"selection indices on row-major axis {axis} must preserve every complete aligned {multiple}-value GGUF block")
  else
    .ok (start / multiple)

def encodedRanges (selection : TensorSelection) (dimension multiple : Nat) :
    Except GgufError (Nat × List (Nat × Nat)) :=
  match selection with
  | .range axis start finish =>
    if finish ≤ start ∨ dimension < finish then
      .error (.invalidTensor tensor.name
        s!"selection range {start}..{finish} exceeds row-major axis {axis} dimension {dimension}")
    else if start % multiple ≠ 0 ∨ finish % multiple ≠ 0 then
      .error (.invalidTensor tensor.name
        s!"selection range {start}..{finish} on row-major axis {axis} must align to {multiple}-value GGUF blocks")
    else
      .ok (finish - start, [(start / multiple, finish / multiple - start / multiple)])
  | .indices axis indices =>
    if indices.isEmpty ∨ indices.any (dimension ≤ ·) then
      .error (.invalidTensor tensor.name
        s!"selection indices {indices} exceed row-major axis {axis} dimension {dimension}")
    else if multiple = 1 then
      .ok (indices.length, coalesceIndices indices)
    else if indices.length % multiple ≠ 0 then
      .error (.invalidTensor tensor.name
        s!"selection indices on row-major axis {axis} must contain complete {multiple}-value GGUF blocks")
    else do
      let blocks ← (RowMajor.chunks multiple (indices.length / multiple) indices).mapM
        (encodedBlock tensor axis multiple)
      return (indices.length, coalesceIndices blocks)

def relativeSpan (innerBytes : Nat) (range : Nat × Nat) : Except GgufError RelativeEncodedSpan := do
  let offset ← orOverflow "selection span offset" (checkedMul range.1 innerBytes)
  let byteLen ← orOverflow "selection span length" (checkedMul range.2 innerBytes)
  return ⟨offset, byteLen⟩

def isFullCanonical (repetitionStride : Nat) : Bool :=
  match spans with
  | [span] => span.offset = 0 ∧ span.byteLen = repetitionStride
  | _ => false

def bytesPerRepetition : Except GgufError Nat :=
  spans.foldlM (fun total span =>
    orOverflow "selected tensor byte length" (checkedAdd total span.byteLen)) 0

def maximumRelativeEnd : Except GgufError Nat :=
  spans.foldlM (fun maximum span => do
    let finish ← orOverflow "selection span end" (checkedAdd span.offset span.byteLen)
    return max maximum finish) 0

variable (plan : TensorSelectionPlan)

/-- The end of `TensorSelectionPlan::new`: the checks on the pattern of ranges. -/
def TensorSelectionPlan.check (tensor : TensorDescriptor) (full : Bool) :
    Except GgufError TensorSelectionPlan := do
  let elements ← plan.selectedDescriptor.elementCount
  let expected ← orOverflow "selected tensor descriptor byte length"
    (checkedMul (elements / plan.alignment.blockValues) plan.alignment.blockBytes)
  if expected ≠ plan.encodedByteLen then
    .error (.invalidTensor tensor.name
      s!"selection plan produced {plan.encodedByteLen} encoded bytes but its rewritten descriptor requires {expected}")
  else
    let last ← maximumRelativeEnd plan.relativeSpans
    if plan.repetitionStride < last ∧ !full then
      .error (.invalidTensor tensor.name "selection span exceeds its encoded repetition stride")
    else
      let finalOffset ← orOverflow "selection final span offset"
        (checkedMul plan.repetitionStride (plan.repetitions - 1))
      let finalEnd ← orOverflow "selection final span end"
        ((checkedAdd tensor.dataOffset finalOffset).bind (checkedAdd · last))
      let tensorEnd ← orOverflow "tensor end offset" (checkedAdd tensor.dataOffset tensor.byteLen)
      if tensorEnd < finalEnd then
        .error (.invalidTensor tensor.name "selection plan exceeds the encoded tensor payload")
      else
        .ok plan

def TensorSelectionPlan.new (selection : TensorSelection) :
    Except GgufError TensorSelectionPlan := do
  let rank := tensor.dimensions.length
  let axis := selection.axis
  if rank ≤ axis then
    .error (.invalidTensor tensor.name s!"selection axis {axis} is outside rank {rank}")
  else if tensor.byteLen = 0 ∨ tensor.dimensions.contains 0 then
    .error (.invalidTensor tensor.name "cannot select from an empty tensor")
  else
    let ggufDimension := rank - 1 - axis
    let dimension := tensor.dimensions.getD ggufDimension 0
    let (blockValues, blockBytes) ← tensor.ggmlType.blockAndBytes
    let fastest := tensor.dimensions.headD 0
    if fastest % blockValues ≠ 0 then
      .error (.invalidTensor tensor.name
        s!"fastest dimension {fastest} is not divisible by GGUF block length {blockValues}")
    else
      let elements ← tensor.elementCount
      let sourceByteLen ← orOverflow "tensor descriptor byte length"
        (checkedMul (elements / blockValues) blockBytes)
      if sourceByteLen ≠ tensor.byteLen then
        .error (.invalidTensor tensor.name
          s!"descriptor declares {tensor.byteLen} encoded bytes but its shape and type require {sourceByteLen}")
      else
        let multiple := if ggufDimension = 0 then blockValues else 1
        let (selectedValues, ranges) ← encodedRanges tensor selection dimension multiple
        let encodedDimensions := tensor.dimensions.modifyHead (· / blockValues)
        let innerUnits ← product "selection inner stride" (encodedDimensions.take ggufDimension)
        let innerBytes ← orOverflow "selection inner byte stride" (checkedMul innerUnits blockBytes)
        let repetitionStride ← orOverflow "selection repetition stride"
          (checkedMul (encodedDimensions.getD ggufDimension 0) innerBytes)
        let repetitions ← product "selection repetition count"
          (encodedDimensions.drop (ggufDimension + 1))
        let relativeSpans ← ranges.mapM (relativeSpan innerBytes)
        let full := isFullCanonical relativeSpans repetitionStride
        let repetitions := if full then 1 else repetitions
        let relativeSpans := if full then [⟨0, tensor.byteLen⟩] else relativeSpans
        let perRepetition ← bytesPerRepetition relativeSpans
        let encodedByteLen ← orOverflow "selected tensor byte length"
          (checkedMul perRepetition repetitions)
        let selectedDescriptor := { tensor with
          dimensions := tensor.dimensions.set ggufDimension selectedValues
          byteLen := encodedByteLen }
        TensorSelectionPlan.check {
          selection
          ggufDimension
          alignment := ⟨blockValues, blockBytes, multiple⟩
          selectedDescriptor
          sourceDataOffset := tensor.dataOffset
          repetitionStride
          repetitions
          relativeSpans
          encodedByteLen } tensor full

abbrev PlanM := Effect Unit GgufError

/-- A multiplication that the source does not check: overflow is a panic. -/
def mulUnchecked {σ : Type} (maximum left right : Nat) : Effect σ GgufError Nat :=
  if left * right ≤ maximum then pure (left * right)
  else Effect.abort "attempt to multiply with overflow"

def TensorSelectionPlan.spanAt (repetition : Nat)
    (span : RelativeEncodedSpan) : PlanM EncodedSpan := do
  let start ← mulUnchecked maximum repetition plan.repetitionStride
  let start ← addUnchecked maximum plan.sourceDataOffset start
  let offset ← addUnchecked maximum start span.offset
  return ⟨offset, span.byteLen⟩

def TensorSelectionPlan.encodedSpans : PlanM (List EncodedSpan) := do
  let spans ← (List.range plan.repetitions).mapM fun repetition =>
    plan.relativeSpans.mapM (plan.spanAt repetition)
  return spans.flatten

def Reader.readRawPlan (reader : Reader) (plan : TensorSelectionPlan) : PlanM (List UInt8) := do
  Effect.ofResult
    (checkLimit "tensor allocation" plan.encodedByteLen reader.limits.maxAllocationBytes.toNat)
  let spans ← plan.encodedSpans
  let parts ← Effect.ofResult (spans.mapM fun span => reader.readAt span.offset span.byteLen)
  return parts.flatten

/-- A nonempty interval of the elements, seen with a shape of its own. -/
structure DenseTensorSpan where
  offsetElements : Nat
  shape : List Nat
  nonempty : shape ≠ [] ∧ shape.contains 0 = false
  fits : shape.prod ≤ maximum

def DenseTensorSpan.elementCount (span : DenseTensorSpan) : Except GgufError Nat :=
  product "dense tensor span element count" span.shape

structure DenseTensorSpanPlan where
  selection : DenseTensorSpan
  selectedDescriptor : TensorDescriptor
  encodedSpan : EncodedSpan

def GgmlType.debug : GgmlType → String
  | f32 => "F32"
  | f16 => "F16"
  | q4_0 => "Q4_0"
  | q4_1 => "Q4_1"
  | q5_0 => "Q5_0"
  | q5_1 => "Q5_1"
  | q8_0 => "Q8_0"
  | q2K => "Q2K"
  | q3K => "Q3K"
  | q4K => "Q4K"
  | q5K => "Q5K"
  | q6K => "Q6K"
  | iq2xxs => "IQ2XXS"
  | iq2xs => "IQ2XS"
  | iq3xxs => "IQ3XXS"
  | iq1s => "IQ1S"
  | iq4nl => "IQ4NL"
  | iq3s => "IQ3S"
  | iq2s => "IQ2S"
  | iq4xs => "IQ4XS"
  | i8 => "I8"
  | i16 => "I16"
  | i32 => "I32"
  | i64 => "I64"
  | f64 => "F64"
  | iq1m => "IQ1M"
  | bf16 => "Bf16"
  | removedIq4nl4_4 => "RemovedIQ4NL4_4"
  | removedIq4nl4_8 => "RemovedIQ4NL4_8"
  | removedIq4nl8_8 => "RemovedIQ4NL8_8"
  | mxFp4 => "MxFp4"
  | unknown code => s!"Unknown({code})"

def DenseTensorSpanPlan.new (selection : DenseTensorSpan) :
    Except GgufError DenseTensorSpanPlan := do
  let elements ← tensor.elementCount
  let (blockValues, blockBytes) ← tensor.ggmlType.blockAndBytes
  let type := tensor.ggmlType.debug
  if elements % blockValues ≠ 0 then
    .error (.invalidTensor tensor.name
      s!"tensor element count {elements} is not divisible by {type} block length {blockValues}")
  else
    let expected ← orOverflow "dense tensor byte length"
      (checkedMul (elements / blockValues) blockBytes)
    if expected ≠ tensor.byteLen then
      .error (.invalidTensor tensor.name
        s!"descriptor declares {tensor.byteLen} encoded bytes but its dense shape and type require {expected}")
    else
      let selected ← selection.elementCount
      let start := selection.offsetElements
      let selectedEnd ← orOverflow "dense tensor span end" (checkedAdd start selected)
      let fastest := selection.shape.getLastD 0
      if elements < selectedEnd then
        .error (.invalidTensor tensor.name
          s!"contiguous scalar span {start}..{selectedEnd} exceeds tensor element count {elements}")
      else if start % blockValues ≠ 0 ∨ selected % blockValues ≠ 0 then
        .error (.invalidTensor tensor.name
          s!"contiguous span {start}..{selectedEnd} must align to {type} block length {blockValues}")
      else if fastest % blockValues ≠ 0 then
        .error (.invalidTensor tensor.name
          s!"contiguous span fastest dimension {fastest} must align to {type} block length {blockValues}")
      else
        let byteOffset ← orOverflow "dense tensor span byte offset"
          (checkedMul (start / blockValues) blockBytes)
        let byteLen ← orOverflow "dense tensor span byte length"
          (checkedMul (selected / blockValues) blockBytes)
        let offset ← orOverflow "dense tensor span file offset"
          (checkedAdd tensor.dataOffset byteOffset)
        let finish ← orOverflow "dense tensor span file end" (checkedAdd offset byteLen)
        let tensorEnd ← orOverflow "tensor end offset" (checkedAdd tensor.dataOffset tensor.byteLen)
        if tensorEnd < finish then
          .error (.invalidTensor tensor.name "contiguous scalar span exceeds the encoded tensor payload")
        else
          let relativeOffset ← orOverflow "dense tensor span relative offset"
            (checkedAdd tensor.relativeOffset byteOffset)
          return ⟨selection, { tensor with
            dimensions := selection.shape.reverse
            relativeOffset
            dataOffset := offset
            byteLen }, ⟨offset, byteLen⟩⟩

/-- What `read_dense_tensor_span` reads, before it converts the bytes. -/
def Reader.readDenseSpan (reader : Reader) (plan : DenseTensorSpanPlan) :
    Except GgufError (List UInt8) := do
  checkLimit "tensor allocation" plan.encodedSpan.byteLen reader.limits.maxAllocationBytes.toNat
  reader.readAt plan.encodedSpan.offset plan.encodedSpan.byteLen

end Eredu.Gguf
