import Eredu.Checkpoint.Selection

/-!
# Reads of SafeTensors payloads

A tensor is stored as the packed bits of its elements. `planSafetensorsReads`
decides which byte ranges of the payload a selection needs,
`selectSafetensorsBytes` does the same for a payload in memory, and
`Shard.acquire` serves a request from the file or from a tensor that an earlier
lease keeps in memory.
-/

namespace Eredu.Checkpoint

open Word RowMajor

inductive ReadPolicy where
  | requireBounded
  | allowFullTensorRead
  deriving Repr, DecidableEq

structure Span where
  start : Nat
  finish : Nat
  deriving Repr, DecidableEq

def Span.len (span : Span) : Nat := span.finish - span.start

structure SafetensorsReadPlan where
  ranges : List Span
  physicallyBounded : Bool
  deriving Repr, DecidableEq

def SafetensorsReadPlan.single (range : Span) (physicallyBounded : Bool) : SafetensorsReadPlan :=
  ⟨[range], physicallyBounded⟩

def pushCoalescedRange (ranges : List Span) (range : Span) : List Span :=
  match ranges.getLast? with
  | some previous =>
    if previous.finish = range.start then
      ranges.dropLast ++ [⟨previous.start, range.finish⟩]
    else
      ranges ++ [range]
  | none => ranges ++ [range]

def scalarBytes (bits : Nat) : Option Nat := if bits % 8 = 0 then some (bits / 8) else none

variable (key : String)

def axisIndices : TensorSelection → Except StoreError (Nat × List Nat)
  | .range axis start finish => .ok (axis, List.range' start (finish - start))
  | .indices axis indices => .ok (axis, indices)
  | .contiguous .. =>
    .error (.boundedSelectionUnavailable key "packed contiguous selection is not byte aligned")
  -- both callers have returned for a full selection
  | .full => .error (.boundedSelectionUnavailable key "unreachable")

variable (bits : Nat)

/-- Whether the selected elements fill whole bytes. -/
def checkOutputBits (outputShape : List Nat) : Except StoreError Unit := do
  let elements ← checkedElements key outputShape
  let outputBits ← required (.overflow s!"selected bit length for \"{key}\"")
    (checkedMul elements bits)
  if outputBits % 8 ≠ 0 then
    .error (.boundedSelectionUnavailable key "selected packed payload is not byte aligned")
  else
    .ok ()

/-- The bytes of the elements that follow one coordinate of the axis; `bytes` multiplies their number
with the bytes of one element. -/
def blockBytes (bits inner : Nat) (indices : List Nat) (bytes : Nat → Except StoreError Nat) :
    Except StoreError Nat :=
  if bits = 4 then
    if inner % 2 ≠ 0 ∨ indices.any fun index => index * inner % 2 ≠ 0 then
      .error (.boundedSelectionUnavailable key "FP4 selection crosses a nibble boundary")
    else
      .ok (inner / 2)
  else do
    let scalar ← required
      (.boundedSelectionUnavailable key "stored scalar width is not byte aligned") (scalarBytes bits)
    bytes scalar

def contiguousSpan (scalar offsetElements : Nat) (shape : List Nat) : Except StoreError Span := do
  let start ← required (.overflow s!"contiguous byte start for \"{key}\"")
    (checkedMul offsetElements scalar)
  let count ← checkedElements key shape
  let finish ← required (.overflow s!"contiguous byte end for \"{key}\"") do
    let length ← checkedMul count scalar
    checkedAdd start length
  return ⟨start, finish⟩

variable (shape : List Nat) (payloadLen : Nat)

def rowBytes : Except StoreError Nat :=
  let rows := shape.getD 0 0
  if rows = 0 ∨ payloadLen % rows ≠ 0 then
    .error (.invalidSelection key "payload is not row divisible")
  else
    .ok (payloadLen / rows)

def indexRuns (indices : List Nat) : Except StoreError (List Span) :=
  indices.foldlM (fun runs index => do
    let finish ← required (.overflow s!"selection index end for \"{key}\"")
      (checkedAdd index 1)
    return pushCoalescedRange runs ⟨index, finish⟩) []

def runBytes (axisLen block payloadLen outerIndex : Nat) (run : Span) : Except StoreError Span := do
  let start ← required (.overflow s!"selection byte start for \"{key}\"") do
    let row ← checkedMul outerIndex axisLen
    let index ← checkedAdd row run.start
    checkedMul index block
  let finish ← required (.overflow s!"selection byte end for \"{key}\"") do
    let length ← checkedMul run.len block
    checkedAdd start length
  if payloadLen < finish then
    .error (.invalidSelection key "selection exceeds payload")
  else
    return ⟨start, finish⟩

variable (selection : TensorSelection) (outputShape : List Nat)

def planAxis : Except StoreError (List Span) := do
  let (axis, indices) ← axisIndices key selection
  let axisLen := shape.getD axis 0
  let outer := (shape.take axis).prod
  let inner := (shape.drop (axis + 1)).prod
  checkOutputBits key bits outputShape
  let block ← blockBytes key bits inner indices fun scalar =>
    required (.overflow s!"selection block bytes for \"{key}\"") (checkedMul inner scalar)
  let runs ← indexRuns key indices
  let ranges ← (List.range outer).foldlM (fun ranges outerIndex =>
    runs.foldlM (fun ranges run => do
      let range ← runBytes key axisLen block payloadLen outerIndex run
      return pushCoalescedRange ranges range) ranges) []
  if ranges = [] then
    .error (.invalidSelection key "selection produced no physical ranges")
  else
    return ranges

def planSafetensorsReads (policy : ReadPolicy) : Except StoreError SafetensorsReadPlan :=
  let elsewhere : Except StoreError SafetensorsReadPlan :=
    if policy = .requireBounded then do
      let ranges ← planAxis key bits shape payloadLen selection outputShape
      return ⟨ranges, true⟩
    else
      .ok (.single ⟨0, payloadLen⟩ false)
  match selection, scalarBytes bits with
  | .full, _ => .ok (.single ⟨0, payloadLen⟩ true)
  | .contiguous offsetElements selected, some scalar => do
    let span ← contiguousSpan key scalar offsetElements selected
    if payloadLen < span.finish then
      .error (.invalidSelection key "contiguous byte span outside payload")
    else
      return .single span true
  | .range 0 start finish, some _ => do
    let row ← rowBytes key shape payloadLen
    let byteStart ← required (.overflow s!"row selection byte start for \"{key}\"")
      (checkedMul start row)
    let byteFinish ← required (.overflow s!"row selection byte end for \"{key}\"")
      (checkedMul finish row)
    return .single ⟨byteStart, byteFinish⟩ true
  | _, _ => elsewhere

def bytesAt (payload : List UInt8) (ranges : List Span) : List UInt8 :=
  ranges.flatMap fun range => slice range.start range.len payload

/-- The total length of the ranges, which is reserved before any byte is read. -/
def capacity (cause : StoreError) (ranges : List Span) : Except StoreError Nat :=
  ranges.foldlM (fun total range => required cause (checkedAdd total range.len)) 0

def readRange (file : List UInt8) (tensorPayloadStart : Nat) (range : Span) :
    Except StoreError (List UInt8) := do
  let absolute ← required (.overflow "selected payload offset")
    (checkedAdd tensorPayloadStart range.start)
  if file.length < absolute + range.len then
    .error .io
  else
    return slice absolute range.len file

/-- `opens` says whether the file can be opened and is still the admitted one. -/
def readSafetensorsRanges (opens : Bool) (file : List UInt8) (tensorPayloadStart : Nat)
    (ranges : List Span) : Except StoreError (List UInt8) := do
  let _ ← capacity (.overflow "selected payload length") ranges
  if opens then
    let pieces ← ranges.mapM (readRange file tensorPayloadStart)
    return pieces.flatten
  else
    .error .io

def copyRange (payload : List UInt8) (range : Span) : Except StoreError (List UInt8) :=
  if range.finish < range.start ∨ payload.length < range.finish then
    .error (.invalidSelection key "cached selection exceeds payload")
  else
    .ok (slice range.start range.len payload)

def copySafetensorsRanges (payload : List UInt8) (ranges : List Span) :
    Except StoreError (List UInt8) := do
  let _ ← capacity (.overflow s!"cached selected payload length for \"{key}\"") ranges
  let pieces ← ranges.mapM (copyRange key payload)
  return pieces.flatten

/-- The selected bytes: a span of the data, or of bytes put together for the selection. -/
structure SelectedBytes where
  span : Span
  bytes : Option (List UInt8)
  deriving Repr, DecidableEq

def SelectedBytes.contents (selected : SelectedBytes) (data : List UInt8) : List UInt8 :=
  slice selected.span.start selected.span.len (selected.bytes.getD data)

def selectAxis (data : List UInt8) (selection : TensorSelection)
    (outputShape : List Nat) : Except StoreError (List UInt8) := do
  let (axis, indices) ← axisIndices key selection
  let axisLen := shape.getD axis 0
  let outer := (shape.take axis).prod
  let inner := (shape.drop (axis + 1)).prod
  checkOutputBits key bits outputShape
  let block ← blockBytes key bits inner indices fun scalar => .ok (inner * scalar)
  (List.range outer).foldlM (fun output outerIndex =>
    indices.foldlM (fun output index => do
      let start := (outerIndex * axisLen + index) * block
      if data.length < start + block then
        .error (.invalidSelection key "selection exceeds payload")
      else
        return output ++ slice start block data) output) []

def selectSafetensorsBytes (data : List UInt8)
    (selection : TensorSelection) (outputShape : List Nat) (policy : ReadPolicy) :
    Except StoreError SelectedBytes :=
  let elsewhere : Except StoreError SelectedBytes :=
    if policy = .allowFullTensorRead then
      .ok ⟨⟨0, data.length⟩, none⟩
    else do
      let output ← selectAxis key bits shape data selection outputShape
      return ⟨⟨0, output.length⟩, some output⟩
  match selection, scalarBytes bits with
  | .full, _ => .ok ⟨⟨0, data.length⟩, none⟩
  | .contiguous offsetElements selected, some scalar => do
    let span ← contiguousSpan key scalar offsetElements selected
    if span.finish < span.start ∨ data.length < span.finish then
      .error (.invalidSelection key "contiguous byte span outside payload")
    else
      return ⟨span, none⟩
  | .range 0 start finish, some _ => do
    let row ← rowBytes key shape data.length
    return ⟨⟨start * row, finish * row⟩, none⟩
  | _, _ => elsewhere

structure TensorInfo where
  bits : Nat
  shape : List Nat
  /-- The first byte of the tensor's payload and the one after its last, in the data of the shard. -/
  dataStart : Nat
  dataFinish : Nat
  deriving Repr, DecidableEq

structure Shard where
  file : List UInt8
  payloadOffset : Nat
  info : String → Option TensorInfo
  small : file.length ≤ maximum
  /-- Every tensor lies in the file, and its length is that of its elements. -/
  admitted : ∀ key tensor, info key = some tensor → tensor.dataStart ≤ tensor.dataFinish ∧
    payloadOffset + tensor.dataFinish ≤ file.length ∧
    tensor.shape.prod * tensor.bits = 8 * (tensor.dataFinish - tensor.dataStart)

variable (shard : Shard)

def Shard.payload (tensor : TensorInfo) : List UInt8 :=
  slice (shard.payloadOffset + tensor.dataStart) (tensor.dataFinish - tensor.dataStart)
    shard.file

/-- The complete tensors that some lease keeps in memory. -/
abbrev FullTensors := String → Option (List UInt8)

structure TensorReadRequest where
  key : String
  selection : TensorSelection
  policy : ReadPolicy
  deriving Repr, DecidableEq

structure SafetensorsLease where
  outputShape : List Nat
  bytes : List UInt8
  physicallyBounded : Bool
  offsetBytes : Nat
  physicalReads : Nat
  physicalReadBytes : Nat
  deriving Repr, DecidableEq

def Shard.fetch (opens : Bool) (key : String) (payloadStart : Nat)
    (completeTensor : Bool) (ranges : List Span) :
    Option (List UInt8) → Except StoreError (List UInt8)
  | some kept =>
    if opens then
      if completeTensor then .ok kept else copySafetensorsRanges key kept ranges
    else
      .error .io
  | none => readSafetensorsRanges opens shard.file payloadStart ranges

def Shard.acquire (opens : Bool) (cached : FullTensors) (request : TensorReadRequest) :
    Except StoreError (SafetensorsLease × FullTensors) := do
  let key := request.key
  let tensor ← required (.unknownTensor key) (shard.info key)
  let outputShape ← validateSelection key tensor.shape request.selection
  let payloadStart ← required (.overflow s!"payload start for \"{key}\"")
    (checkedAdd shard.payloadOffset tensor.dataStart)
  let tensorLen ← required .io (checkedSub tensor.dataFinish tensor.dataStart)
  let read ← planSafetensorsReads key tensor.bits tensor.shape tensorLen request.selection
    outputShape request.policy
  let completeTensor : Bool := read.ranges = [⟨0, tensorLen⟩]
  let cacheHit := (cached key).isSome
  let bytes ← shard.fetch opens key payloadStart completeTensor read.ranges (cached key)
  let kept : FullTensors := if completeTensor && !cacheHit then
      fun other => if other = key then some bytes else cached other
    else cached
  return (⟨outputShape, bytes, read.physicallyBounded, (read.ranges.headD ⟨0, 0⟩).start,
    if cacheHit then 0 else read.ranges.length, if cacheHit then 0 else bytes.length⟩, kept)

/-- What happens to the kept tensors: a request is served, or the last lease of a tensor ends. -/
inductive Shard.Step (shard : Shard) : FullTensors → FullTensors → Prop
  | acquire {opens : Bool} {cached kept : FullTensors} {request : TensorReadRequest}
      {lease : SafetensorsLease} (served : shard.acquire opens cached request = .ok (lease, kept)) :
      shard.Step cached kept
  | release (cached : FullTensors) (key : String) :
      shard.Step cached (fun other => if other = key then none else cached other)

/-- The kept tensors that can arise in a shard that starts with none. -/
inductive Shard.Reachable (shard : Shard) : FullTensors → Prop
  | fresh : shard.Reachable fun _ => none
  | step {cached kept : FullTensors} (reached : shard.Reachable cached)
      (taken : shard.Step cached kept) : shard.Reachable kept

end Eredu.Checkpoint
