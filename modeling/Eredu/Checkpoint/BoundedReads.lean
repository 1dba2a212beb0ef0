import Eredu.Checkpoint.Safetensors

/-!
# Bounded reads give exactly the selected elements

The elements of a payload are its bits in groups. Every path of the planner reads
bytes whose elements are those that the selection means; the coalescing of
adjacent ranges changes how they are read and not what is read.
-/

namespace Eredu.Checkpoint

open List RowMajor Word Nat Effect
open Effect (Concludes)
open RowMajor (slice)

variable (byte : UInt8)

def byteBits : List Bool := (range 8).map byte.toNat.testBit

variable (bytes : List UInt8)

def bitString : List Bool := bytes.flatMap byteBits

def elements (bits : Nat) (payload : List UInt8) : List (List Bool) :=
  chunks bits ((bitString payload).length / bits) (bitString payload)

def byteOfBits (bits : List Bool) : UInt8 :=
  UInt8.ofNat (bits.foldr (fun bit rest => bit.toNat + 2 * rest) 0)

def packed (values : List (List Bool)) : List UInt8 :=
  (chunks 8 (values.flatten.length / 8) values.flatten).map byteOfBits

theorem byteOfBits_byteBits : byteOfBits (byteBits byte) = byte := by
  have all : ∀ value < 256, byteOfBits ((range 8).map (testBit value)) = UInt8.ofNat value := by
    decide +kernel
  rw [byteBits, all _ (UInt8.toNat_lt byte), UInt8.ofNat_toNat]

theorem length_byteBits : (byteBits byte).length = 8 := by
  simp [byteBits]

theorem length_bitString : (bitString bytes).length = bytes.length * 8 := by
  simp [bitString, length_byteBits]

theorem bitString_slice (start count : Nat) (bytes : List UInt8) :
    bitString (slice start count bytes) = slice (start * 8) (count * 8) (bitString bytes) :=
  flatMap_slice length_byteBits start count bytes

theorem map_byteOfBits_chunks :
    (chunks 8 bytes.length (bitString bytes)).map byteOfBits = bytes := by
  induction bytes with
  | nil => rfl
  | cons byte bytes ih =>
    rw [bitString, flatMap_cons, length_cons, chunks,
      take_left' (length_byteBits byte), drop_left' (length_byteBits byte), map_cons,
      byteOfBits_byteBits]
    exact congrArg _ ih

variable {bits : Nat}

theorem packed_elements {bytes : List UInt8} (hw : bits ∣ bytes.length * 8) :
    packed (elements bits bytes) = bytes := by
  have hf : (elements bits bytes).flatten = bitString bytes := by
    apply flatten_chunks
    rw [length_bitString, Nat.div_mul_cancel hw]
  rw [packed, hf, length_bitString, Nat.mul_div_cancel _ (by decide), map_byteOfBits_chunks]

theorem elements_eq_unpacked (bits : Nat) (bytes : List UInt8) :
    elements bits bytes = (unpacked 1 bits (bitString bytes)).map Prod.fst :=
  (unpacked_one bits (bitString bytes)).symm

def Holds (bits : Nat) (shape : List Nat) (payload : List UInt8) (selection : TensorSelection)
    (bytes : List UInt8) : Prop :=
  (elements bits bytes).map some = selection.select shape (elements bits payload) ∧
    bits ∣ bytes.length * 8

variable {shape : List Nat} {selection : TensorSelection}

theorem Holds.packed {payload bytes : List UInt8} (hh : Holds bits shape payload selection bytes) :
    ∃ values : List (List Bool), values.map some = selection.select shape (elements bits payload) ∧
      bytes = packed values :=
  ⟨elements bits bytes, hh.1, (packed_elements hh.2).symm⟩

def blocksAt (outer axisLen block : Nat) (indices : List Nat) (payload : List UInt8) : List UInt8 :=
  (range outer).flatMap fun outerIndex => indices.flatMap fun index =>
    slice ((outerIndex * axisLen + index) * block) block payload

variable {axisLen : Nat}

theorem block_inside {outer outerIndex index : Nat} (block : Nat) (row : outerIndex < outer)
    (inside : index < axisLen) :
    (outerIndex * axisLen + index) * block + block ≤ outer * axisLen * block := by
  rw [← succ_mul]
  apply Nat.mul_le_mul_right
  calc (outerIndex * axisLen + index).succ
      ≤ outerIndex * axisLen + axisLen := Nat.add_le_add_left inside _
    _ = (outerIndex + 1) * axisLen := (succ_mul _ _).symm
    _ ≤ outer * axisLen := mul_le_mul_right _ row

variable {indices : List Nat}

section Decoding

variable {bits : Nat} {payload bytes : List UInt8}

theorem dvd_length_blocksAt {outer block : Nat} (length : payload.length = outer * axisLen * block)
    (inside : ∀ index ∈ indices, index < axisLen) :
    block ∣ (blocksAt outer axisLen block indices payload).length := by
  unfold blocksAt
  rw [length_flatMap]
  apply dvd_sum
  intro rows hm
  obtain ⟨outerIndex, row, rfl⟩ := mem_map.mp hm
  rw [length_flatMap]
  apply dvd_sum
  intro size hc
  obtain ⟨index, hl, rfl⟩ := mem_map.mp hc
  have hf := block_inside block (mem_range.mp row) (inside index hl)
  rw [← length] at hf
  rw [length_slice hf]

theorem bitString_blocksAt {outer block inner : Nat} (indices : List Nat)
    (aligned : block * 8 = inner * bits) :
    bitString (blocksAt outer axisLen block indices payload) =
      encodedRuns outer axisLen inner bits (indices.map fun index => (index, 1))
        (bitString payload) := by
  unfold blocksAt encodedRuns bitString
  rw [flatMap_assoc]
  apply flatMap_congr
  intro outerIndex _
  rw [flatMap_assoc, flatMap_map]
  apply flatMap_congr
  intro index _
  rw [flatMap_slice length_byteBits]
  congr 1
  · rw [mul_assoc, aligned]
    ring
  · rw [aligned, one_mul]

variable (width : 0 < bits)

include width

theorem elements_slice {total start count : Nat} (length : payload.length * 8 = total * bits)
    (inside : start + count ≤ total)
    (hs : bitString bytes = slice (start * bits) (count * bits) (bitString payload)) :
    (elements bits bytes).map some = (range' start count).map ((elements bits payload)[·]?) ∧
      bytes.length * 8 = count * bits := by
  have he : (bitString payload).length = total * bits := by rw [length_bitString, length]
  have hf : start * bits + count * bits ≤ (bitString payload).length := by
    rw [he, ← add_mul]
    exact mul_le_mul_right _ inside
  constructor
  · have hu : (unpacked 1 bits (slice (start * bits) (count * bits)
        (bitString payload))).map Prod.fst =
          (slice (start * 1) (count * 1) (unpacked 1 bits (bitString payload))).map Prod.fst :=
      congrArg _ (unpacked_slice width he inside)
    rw [← hs, ← elements_eq_unpacked, mul_one, mul_one, slice, map_take, map_drop,
      ← elements_eq_unpacked] at hu
    have hb : start + count ≤ (elements bits payload).length := by
      rw [elements, length_chunks, he, Nat.mul_div_cancel _ width]
      exact inside
    rw [hu, ← map_some_slice hb]
    rfl
  · rw [← length_bitString, hs, length_slice hf]

/-- Blocks along an axis hold the elements taken along it. -/
theorem elements_blocksAt {outer inner : List Nat} {block : Nat}
    (length : payload.length * 8 = outer.prod * (axisLen * inner.prod) * bits)
    (aligned : block * 8 = inner.prod * bits) (inside : ∀ index ∈ indices, index < axisLen) :
    (elements bits (blocksAt outer.prod axisLen block indices payload)).map some =
      gather (outer ++ axisLen :: inner) outer.length indices (elements bits payload) := by
  have hr : ∀ run ∈ indices.map fun index => (index, 1), run.1 + run.2 ≤ axisLen := by
    intro run hl
    obtain ⟨index, hm, rfl⟩ := mem_map.mp hl
    exact inside index hm
  have hs : (indices.map fun index => (index, 1)).flatMap
      (fun run : Nat × Nat => range' run.1 run.2) = indices := by
    rw [flatMap_map]
    exact flatMap_singleton' indices
  have he : (bitString payload).length = outer.prod * (axisLen * inner.prod) * bits := by
    rw [length_bitString, length]
  have ht : (unpacked 1 bits _).map some = _ := unpacked_encodedRuns width he hr
  rw [← bitString_blocksAt indices aligned, hs, mul_one] at ht
  have hf := congrArg (map (Option.map Prod.fst)) ht
  rw [gather_eq, elements_eq_unpacked, elements_eq_unpacked]
  rw [map_map, map_map] at hf
  rw [map_map]
  simp only [getElem?_map]
  exact hf

end Decoding

/-- A range in its order and inside a payload of some length. -/
def Span.Inside (limit : Nat) (span : Span) : Prop :=
  span.start ≤ span.finish ∧ span.finish ≤ limit

section Coalescing

variable {limit : Nat} {ranges : List Span} {range : Span}

theorem inside_pushCoalescedRange (ho : ∀ other ∈ ranges, other.Inside limit)
    (inside : range.Inside limit) : ∀ other ∈ pushCoalescedRange ranges range, other.Inside limit := by
  have hp : ∀ other ∈ ranges ++ [range], other.Inside limit := by
    intro other hl
    rcases mem_append.mp hl with old | new
    · exact ho other old
    · rw [mem_singleton.mp new]
      exact inside
  unfold pushCoalescedRange
  split
  · next previous hla =>
    have hb := ho previous (mem_of_getLast? hla)
    split
    · next ha =>
      intro other hl
      rcases mem_append.mp hl with old | new
      · exact ho other (mem_of_mem_dropLast old)
      · rw [mem_singleton.mp new]
        exact ⟨hb.1.trans (ha.le.trans inside.1), inside.2⟩
    · exact hp
  · exact hp

/-- What the ranges hold does not depend on whether adjacent ones are one, for contents that are
those of two parts. -/
theorem flatMap_pushCoalescedRange {β : Type} {contents : Span → List β}
    (hpa : ∀ start middle finish, start ≤ middle → middle ≤ finish →
      contents ⟨start, finish⟩ = contents ⟨start, middle⟩ ++ contents ⟨middle, finish⟩)
    (ho : ∀ other ∈ ranges, other.Inside limit) (inside : range.Inside limit) :
    (pushCoalescedRange ranges range).flatMap contents = ranges.flatMap contents ++ contents range := by
  have hp : (ranges ++ [range]).flatMap contents = ranges.flatMap contents ++ contents range := by
    rw [flatMap_append, flatMap_singleton]
  unfold pushCoalescedRange
  split
  · next previous hl =>
    have hb := ho previous (mem_of_getLast? hl)
    split
    · next ha =>
      obtain ⟨initial, rfl⟩ := getLast?_eq_some_iff.mp hl
      obtain ⟨start, middle⟩ := previous
      obtain ⟨_, finish⟩ := range
      cases ha
      rw [dropLast_concat, flatMap_append, flatMap_append, flatMap_singleton,
        flatMap_singleton, append_assoc, hpa start middle finish hb.1 inside.1]
    · exact hp
  · exact hp

theorem bytesAt_pushCoalescedRange (payload : List UInt8)
    (ho : ∀ other ∈ ranges, other.Inside limit) (inside : range.Inside limit) :
    bytesAt payload (pushCoalescedRange ranges range) =
      bytesAt payload ranges ++ slice range.start range.len payload :=
  flatMap_pushCoalescedRange (fun _ _ _ hf hs => slice_append payload hf hs) ho inside

end Coalescing

theorem concludes_indexRuns {β : Type} {contents : Span → List β}
    (hp : ∀ start middle finish, start ≤ middle → middle ≤ finish →
      contents ⟨start, finish⟩ = contents ⟨start, middle⟩ ++ contents ⟨middle, finish⟩)
    (key : String) (indices : List Nat) : Concludes (indexRuns key indices)
      (fun runs => (∀ run ∈ runs, run.Inside maximum) ∧
        runs.flatMap contents = indices.flatMap fun index => contents ⟨index, index + 1⟩)
      fun _ => True := by
  apply concludes_foldlM_flatMap
  · intro runs ho index _
    apply (concludes_required fun finish hf => checkedAdd_eq_some.mp hf).bind
    rintro finish ⟨rfl, hs⟩
    have inside : (⟨index, index + 1⟩ : Span).Inside maximum := ⟨le_succ index, hs⟩
    exact ⟨inside_pushCoalescedRange ho inside, flatMap_pushCoalescedRange hp ho inside⟩
  · intro run hl
    cases hl

variable (key : String)

theorem concludes_runBytes (axisLen block payloadLen outerIndex : Nat) (run : Span) :
    Concludes (runBytes key axisLen block payloadLen outerIndex run)
      (fun range => range.start = (outerIndex * axisLen + run.start) * block ∧
        range.len = run.len * block ∧ range.Inside payloadLen) fun _ => True := by
  have hfi : ∀ start, (do
      let row ← checkedMul outerIndex axisLen
      let index ← checkedAdd row run.start
      checkedMul index block) = some start →
        start = (outerIndex * axisLen + run.start) * block := by
    intro start hf
    obtain ⟨row, hiw, hf⟩ := Option.bind_eq_some_iff.mp hf
    obtain ⟨index, his, hf⟩ := Option.bind_eq_some_iff.mp hf
    rw [(checkedMul_eq_some.mp hf).1, (checkedAdd_eq_some.mp his).1, (checkedMul_eq_some.mp hiw).1]
  apply (concludes_required hfi).bind
  rintro start rfl
  have hl : ∀ finish, (do
      let length ← checkedMul run.len block
      checkedAdd ((outerIndex * axisLen + run.start) * block) length) = some finish →
        finish = (outerIndex * axisLen + run.start) * block + run.len * block := by
    intro finish hf
    obtain ⟨length, hi, hf⟩ := Option.bind_eq_some_iff.mp hf
    rw [(checkedAdd_eq_some.mp hf).1, (checkedMul_eq_some.mp hi).1]
  apply (concludes_required hl).bind
  rintro finish rfl
  split
  · trivial
  rename_i inside
  exact ⟨rfl, Nat.add_sub_cancel_left _ _, Nat.le_add_right _ _, Nat.le_of_not_lt inside⟩

/-- The block size that the planner computes is also the selector's, and its bits are those of the
elements of a block. -/
theorem concludes_blockBytes (bits inner : Nat) (indices : List Nat)
    {cause : StoreError} : Concludes (blockBytes key bits inner indices fun scalar =>
        required cause (checkedMul inner scalar))
      (fun block => blockBytes key bits inner indices (fun scalar => .ok (inner * scalar)) = .ok block ∧
        block * 8 = inner * bits) fun _ => True := by
  unfold blockBytes
  split
  · next hf =>
    split
    · trivial
    refine ⟨rfl, ?_⟩
    rw [hf]
    omega
  · unfold scalarBytes
    split
    · next hw =>
      apply (concludes_required fun block hfo => (checkedMul_eq_some.mp hfo).1).mono
      rintro block rfl
      refine ⟨rfl, ?_⟩
      rw [mul_assoc, Nat.div_mul_cancel (Nat.dvd_of_mod_eq_zero hw)]
    · trivial

def runContents (axisLen block outerIndex : Nat) (payload : List UInt8) (run : Span) : List UInt8 :=
  slice ((outerIndex * axisLen + run.start) * block) (run.len * block) payload

theorem runContents_parts (axisLen block outerIndex : Nat) (payload : List UInt8)
    (start middle finish : Nat) (hf : start ≤ middle) (hs : middle ≤ finish) :
    runContents axisLen block outerIndex payload ⟨start, finish⟩ =
      runContents axisLen block outerIndex payload ⟨start, middle⟩ ++
        runContents axisLen block outerIndex payload ⟨middle, finish⟩ := by
  have bytes : ∀ low high, (high - low) * block =
      (outerIndex * axisLen + high) * block - (outerIndex * axisLen + low) * block := by
    intro low high
    rw [← Nat.sub_mul, Nat.add_sub_add_left]
  simp only [runContents, Span.len, bytes]
  exact slice_append payload (Nat.mul_le_mul_right _ (Nat.add_le_add_left hf _))
    (Nat.mul_le_mul_right _ (Nat.add_le_add_left hs _))

/-- The two loops of the planner: over the outer rows, and over the runs of indices. -/
theorem concludes_axisRanges (axisLen block : Nat) (payload : List UInt8)
    (runs : List Span) (outer : Nat) :
    Concludes ((range outer).foldlM (fun ranges outerIndex =>
        runs.foldlM (fun ranges run => do
          let range ← runBytes key axisLen block payload.length outerIndex run
          return pushCoalescedRange ranges range) ranges) [])
      (fun ranges => (∀ range ∈ ranges, range.Inside payload.length) ∧
        bytesAt payload ranges = bytesAt payload [] ++ (range outer).flatMap fun outerIndex =>
          runs.flatMap (runContents axisLen block outerIndex payload)) fun _ => True := by
  apply concludes_foldlM_flatMap
  · intro ranges ho outerIndex _
    apply concludes_foldlM_flatMap _ ho
    intro ranges ho run _
    apply (concludes_runBytes key axisLen block payload.length outerIndex run).bind
    rintro range ⟨hs, length, inside⟩
    refine ⟨inside_pushCoalescedRange ho inside, ?_⟩
    rw [bytesAt_pushCoalescedRange payload ho inside, hs, length]
    rfl
  · intro range hl
    cases hl

theorem concludes_planAxis (bits : Nat) (shape : List Nat) (payload : List UInt8)
    (selection : TensorSelection) (outputShape : List Nat) :
    Concludes (planAxis key bits shape payload.length selection outputShape)
      (fun ranges => ∃ axis indices block, axisIndices key selection = .ok (axis, indices) ∧
        checkOutputBits key bits outputShape = .ok () ∧
        blockBytes key bits (shape.drop (axis + 1)).prod indices
          (fun scalar => .ok ((shape.drop (axis + 1)).prod * scalar)) = .ok block ∧
        block * 8 = (shape.drop (axis + 1)).prod * bits ∧ bytesAt payload ranges =
          blocksAt (shape.take axis).prod (shape.getD axis 0) block indices payload ∧
        ∀ range ∈ ranges, range.Inside payload.length) fun _ => True := by
  apply (concludes_self _).bind
  rintro ⟨axis, indices⟩ ha
  apply (concludes_self _).bind
  rintro ⟨⟩ hw
  apply (concludes_blockBytes key bits _ indices).bind
  rintro block ⟨hs, aligned⟩
  apply (concludes_self _).bind
  intro runs hi
  have hr : ∀ axisLen outerIndex, runs.flatMap (runContents axisLen block outerIndex payload) =
      indices.flatMap fun index => slice ((outerIndex * axisLen + index) * block) block payload := by
    intro axisLen outerIndex
    rw [((concludes_indexRuns (runContents_parts axisLen block outerIndex payload) key
      indices).of_ok hi).2]
    apply flatMap_congr
    intro index _
    rw [runContents, Span.len, Nat.add_sub_cancel_left, Nat.one_mul]
  apply (concludes_axisRanges key _ block payload runs _).bind
  rintro ranges ⟨inside, hc⟩
  split
  · trivial
  refine ⟨axis, indices, block, ha, hw, hs, aligned, ?_, inside⟩
  rw [hc]
  simp only [hr]
  rfl

theorem TensorSelection.Valid.along {output : List Nat}
    (valid : selection.Valid shape output) {key : String} {axis : Nat}
    (ha : axisIndices key selection = .ok (axis, indices)) :
    ∃ axisLen, shape[axis]? = some axisLen ∧ (∀ index ∈ indices, index < axisLen) ∧
      ∀ {α : Type} (elements : List α),
        selection.select shape elements = gather shape axis indices elements := by
  cases selection with
  | full => cases ha
  | range axis start finish =>
    cases ha
    obtain ⟨axisLen, present, _, inside, _⟩ := valid
    refine ⟨axisLen, present, fun index listed => ?_, fun elements => rfl⟩
    have := mem_range'_1.mp listed
    omega
  | indices axis listed =>
    cases ha
    obtain ⟨axisLen, present, _, inside, _⟩ := valid
    exact ⟨axisLen, present, inside, fun elements => rfl⟩
  | contiguous offsetElements selected => cases ha

theorem exists_axis {axis : Nat} (present : shape[axis]? = some axisLen) :
    shape = shape.take axis ++ axisLen :: shape.drop (axis + 1) ∧ (shape.take axis).length = axis ∧
      shape.getD axis 0 = axisLen := by
  obtain ⟨inside, rfl⟩ := List.getElem?_eq_some_iff.mp present
  refine ⟨?_, ?_, ?_⟩
  · rw [← drop_eq_getElem_cons inside, take_append_drop]
  · rw [length_take, min_eq_left inside.le]
  · rw [getD_eq_getElem?_getD, present]
    rfl

section Axis

variable {key : String} {bits axis axisLen block : Nat} {shape indices : List Nat}
  {payload : List UInt8} {selection : TensorSelection}
  (length : shape.prod * bits = 8 * payload.length) (present : shape[axis]? = some axisLen)
  (aligned : block * 8 = (shape.drop (axis + 1)).prod * bits)
  (inside : ∀ index ∈ indices, index < axisLen)

include length present aligned

theorem length_of_blocks : payload.length = (shape.take axis).prod * axisLen * block := by
  obtain ⟨hs, _⟩ := exists_axis present
  have hp : shape.prod = (shape.take axis).prod * (axisLen * (shape.drop (axis + 1)).prod) := by
    conv_lhs => rw [hs]
    rw [prod_append, prod_cons]
  apply Nat.eq_of_mul_eq_mul_left (show 0 < 8 by decide)
  calc 8 * payload.length
      = (shape.take axis).prod * axisLen * ((shape.drop (axis + 1)).prod * bits) := by
        rw [← length, hp]
        ring
    _ = 8 * ((shape.take axis).prod * axisLen * block) := by
        rw [← aligned]
        ring

include inside

theorem holds_blocksAt (width : 0 < bits) (hm : ∀ {α : Type} (elements : List α),
      selection.select shape elements = gather shape axis indices elements) :
    Holds bits shape payload selection
      (blocksAt (shape.take axis).prod axisLen block indices payload) := by
  have hb := length_of_blocks length present aligned
  obtain ⟨hs, hde, _⟩ := exists_axis present
  constructor
  · have hbi : payload.length * 8 =
        (shape.take axis).prod * (axisLen * (shape.drop (axis + 1)).prod) * bits := by
      rw [hb, mul_assoc _ block, aligned]
      ring
    have hd := elements_blocksAt width hbi aligned inside
    rw [← hs, hde] at hd
    rw [hm, hd]
  · have hdi := mul_dvd_mul_right (dvd_length_blocksAt hb inside) 8
    rw [aligned] at hdi
    exact (dvd_mul_left _ _).trans hdi

theorem selectAxis_eq_ok {outputShape : List Nat}
    (ha : axisIndices key selection = .ok (axis, indices))
    (hw : checkOutputBits key bits outputShape = .ok ())
    (hs : blockBytes key bits (shape.drop (axis + 1)).prod indices
      (fun scalar => .ok ((shape.drop (axis + 1)).prod * scalar)) = .ok block) :
    selectAxis key bits shape payload selection outputShape =
      .ok (blocksAt (shape.take axis).prod axisLen block indices payload) := by
  have hb := length_of_blocks length present aligned
  unfold selectAxis
  rw [ha]
  rw [hw]
  show (blockBytes _ _ _ _ _ >>= _) = _
  rw [hs]
  rw [(exists_axis present).2.2]
  apply foldlM_append_eq_ok
  intro output outerIndex row
  apply foldlM_append_eq_ok
  intro output index hl
  have hf := block_inside block (mem_range.mp row) (inside index hl)
  rw [← hb] at hf
  exact if_neg (not_lt.mpr hf)

end Axis

theorem blocksAt_rows (axisLen row start count : Nat) (payload : List UInt8) :
    blocksAt 1 axisLen row (range' start count) payload =
      slice (start * row) (count * row) payload := by
  unfold blocksAt
  rw [range_one, flatMap_singleton]
  simp only [zero_mul, zero_add]
  induction count generalizing start with
  | zero => simp [slice]
  | succ count ih =>
    rw [range'_succ, flatMap_cons, ih]
    have hp := slice_append payload (le_add_right (start * row) row)
      (le_add_right (start * row + row) (count * row))
    rw [Nat.add_sub_cancel_left, Nat.add_sub_cancel_left, Nat.add_assoc (start * row),
      Nat.add_sub_cancel_left] at hp
    rw [succ_mul, succ_mul count, add_comm (count * row), hp]

/-- A plan and the selector's result that agree, and whose bytes hold the selection. -/
structure Agrees (bits : Nat) (shape : List Nat) (payload : List UInt8) (selection : TensorSelection)
    (plan : SafetensorsReadPlan) (selected : Except StoreError SelectedBytes) : Prop where
  holds : Holds bits shape payload selection (bytesAt payload plan.ranges)
  inside : ∀ range ∈ plan.ranges, range.Inside payload.length
  same : ∃ found, selected = .ok found ∧ found.contents payload = bytesAt payload plan.ranges

theorem bytesAt_single (payload : List UInt8) (range : Span) :
    bytesAt payload [range] = slice range.start range.len payload := by
  rw [bytesAt, flatMap_singleton]

theorem agrees_full {payload : List UInt8} (length : shape.prod * bits = 8 * payload.length) :
    Agrees bits shape payload .full (.single ⟨0, payload.length⟩ true)
      (.ok ⟨⟨0, payload.length⟩, none⟩) := by
  have hw : bytesAt payload [⟨0, payload.length⟩] = payload := by
    rw [bytesAt_single]
    exact slice_all payload
  refine ⟨?_, ?_, ?_⟩
  · show Holds bits shape payload .full (bytesAt payload [_])
    rw [hw]
    refine ⟨rfl, shape.prod, ?_⟩
    rw [mul_comm bits, length, mul_comm]
  · intro range hl
    rw [mem_singleton.mp hl]
    exact ⟨zero_le _, le_refl _⟩
  · exact ⟨_, rfl, (bytesAt_single payload _).symm⟩

theorem concludes_contiguousSpan (key : String) (scalar offsetElements : Nat) (selected : List Nat) :
    Concludes (contiguousSpan key scalar offsetElements selected)
      (fun span => span.start = offsetElements * scalar ∧
        span.finish = offsetElements * scalar + selected.prod * scalar) fun _ => True := by
  apply (concludes_required fun start hf => (checkedMul_eq_some.mp hf).1).bind
  rintro start rfl
  apply (concludes_checkedProduct selected).bind
  rintro count ⟨rfl, -⟩
  have hl : ∀ finish, (do
      let length ← checkedMul selected.prod scalar
      checkedAdd (offsetElements * scalar) length) = some finish →
        finish = offsetElements * scalar + selected.prod * scalar := by
    intro finish hf
    obtain ⟨length, hi, hf⟩ := Option.bind_eq_some_iff.mp hf
    rw [(checkedAdd_eq_some.mp hf).1, (checkedMul_eq_some.mp hi).1]
  apply (concludes_required hl).bind
  rintro finish rfl
  exact ⟨rfl, rfl⟩

theorem concludes_rowBytes (key : String) (shape : List Nat) (payloadLen : Nat) :
    Concludes (rowBytes key shape payloadLen)
      (fun row => 0 < shape.getD 0 0 ∧ payloadLen = shape.getD 0 0 * row) fun _ => True := by
  unfold rowBytes
  dsimp only
  split
  · trivial
  rename_i hd
  obtain ⟨hs, hw⟩ := not_or.mp hd
  exact ⟨pos_of_ne_zero hs, (Nat.mul_div_cancel' (Nat.dvd_of_mod_eq_zero (not_not.mp hw))).symm⟩

section Paths

variable (key : String) {bits : Nat} {shape output : List Nat} {payload : List UInt8}
  {selection : TensorSelection} (width : 0 < bits) (length : shape.prod * bits = 8 * payload.length)
  (valid : selection.Valid shape output)

include width length valid

theorem concludes_plan_axis :
    Concludes (do
        let ranges ← planAxis key bits shape payload.length selection output
        return (⟨ranges, true⟩ : SafetensorsReadPlan))
      (fun plan => Agrees bits shape payload selection plan (do
        let output ← selectAxis key bits shape payload selection output
        return (⟨⟨0, output.length⟩, some output⟩ : SelectedBytes))) fun _ => True := by
  apply (concludes_planAxis key bits shape payload selection output).bind
  rintro ranges ⟨axis, indices, block, ha, hw, hs, aligned, hc, ho⟩
  obtain ⟨axisLen, present, inside, hm⟩ := valid.along ha
  rw [(exists_axis present).2.2] at hc
  refine ⟨?_, ho, ?_⟩
  · rw [hc]
    exact holds_blocksAt length present aligned inside width hm
  · rw [selectAxis_eq_ok length present aligned inside ha hw hs, hc]
    refine ⟨_, rfl, ?_⟩
    exact slice_all _

theorem concludes_plan_contiguous {scalar offsetElements : Nat} {selected : List Nat}
    (hc : selection = .contiguous offsetElements selected)
    (hw : scalarBytes bits = some scalar) :
    Concludes (do
        let span ← contiguousSpan key scalar offsetElements selected
        if payload.length < span.finish then
          .error (.invalidSelection key "contiguous byte span outside payload")
        else
          return SafetensorsReadPlan.single span true)
      (fun plan => Agrees bits shape payload selection plan (do
        let span ← contiguousSpan key scalar offsetElements selected
        if span.finish < span.start ∨ payload.length < span.finish then
          .error (.invalidSelection key "contiguous byte span outside payload")
        else
          return ⟨span, none⟩)) fun _ => True := by
  subst hc
  have hsc : bits = scalar * 8 := by
    unfold scalarBytes at hw
    split at hw
    · next hm =>
      cases hw
      rw [Nat.div_mul_cancel (Nat.dvd_of_mod_eq_zero hm)]
    · cases hw
  obtain ⟨_, _, hfi, _⟩ := valid
  apply (concludes_self _).bind
  intro span hi
  obtain ⟨hs, hf⟩ := (concludes_contiguousSpan key scalar offsetElements selected).of_ok hi
  have hsi : span.len = selected.prod * scalar := by
    rw [Span.len, hs, hf, Nat.add_sub_cancel_left]
  have ho : span.start ≤ span.finish := by
    rw [hs, hf]
    exact le_add_right _ _
  split
  · trivial
  rename_i inside
  have hb : payload.length * 8 = shape.prod * bits := by rw [length, mul_comm]
  have hsa : bitString (slice span.start span.len payload) =
      slice (offsetElements * bits) (selected.prod * bits) (bitString payload) := by
    rw [bitString_slice, hs, hsi, hsc, mul_assoc, mul_assoc]
  obtain ⟨hd, hbi⟩ := elements_slice width hb hfi hsa
  refine ⟨?_, ?_, ?_⟩
  · show Holds bits shape payload _ (bytesAt payload [span])
    rw [bytesAt_single]
    refine ⟨?_, ?_⟩
    · rw [hd, ← map_ravel_coordinates, map_map]
      rfl
    · rw [hbi]
      exact dvd_mul_left _ _
  · intro range hl
    rw [mem_singleton.mp hl]
    exact ⟨ho, not_lt.mp inside⟩
  · rw [hi]
    refine ⟨⟨span, none⟩, if_neg ?_, (bytesAt_single payload span).symm⟩
    exact not_or.mpr ⟨not_lt.mpr ho, inside⟩

/-- Rows of whole-byte elements are one span. -/
theorem concludes_plan_rows {start finish : Nat} (hr : selection = .range 0 start finish) :
    Concludes (do
        let row ← rowBytes key shape payload.length
        let byteStart ← required (.overflow s!"row selection byte start for \"{key}\"")
          (checkedMul start row)
        let byteFinish ← required (.overflow s!"row selection byte end for \"{key}\"")
          (checkedMul finish row)
        return SafetensorsReadPlan.single ⟨byteStart, byteFinish⟩ true)
      (fun plan => Agrees bits shape payload selection plan (do
        let row ← rowBytes key shape payload.length
        return ⟨⟨start * row, finish * row⟩, none⟩)) fun _ => True := by
  subst hr
  have ha : axisIndices key (.range 0 start finish) = .ok (0, range' start (finish - start)) := rfl
  obtain ⟨axisLen, present, inside, hm⟩ := valid.along ha
  obtain ⟨_, hag, hn, hbo, _⟩ := valid
  cases present.symm.trans hag
  obtain ⟨hsp, _, hsi⟩ := exists_axis present
  apply (concludes_self _).bind
  intro row hi
  obtain ⟨hs, hb⟩ := (concludes_rowBytes key shape payload.length).of_ok hi
  rw [hsi] at hs hb
  have aligned : row * 8 = (shape.drop 1).prod * bits := by
    apply Nat.eq_of_mul_eq_mul_left hs
    calc axisLen * (row * 8) = shape.prod * bits := by
          rw [length, hb]
          ring
      _ = axisLen * ((shape.drop 1).prod * bits) := by
          conv_lhs => rw [hsp]
          rw [take_zero, nil_append, prod_cons]
          ring
  apply (concludes_required fun value hf => (checkedMul_eq_some.mp hf).1).bind
  rintro byteStart rfl
  apply (concludes_required fun value hf => (checkedMul_eq_some.mp hf).1).bind
  rintro byteFinish rfl
  have hc : bytesAt payload [⟨start * row, finish * row⟩] =
      blocksAt 1 axisLen row (range' start (finish - start)) payload := by
    rw [bytesAt_single, blocksAt_rows, Nat.sub_mul]
    rfl
  refine ⟨?_, ?_, ?_⟩
  · show Holds bits shape payload _ (bytesAt payload [_])
    rw [hc]
    exact holds_blocksAt length present aligned inside width hm
  · intro range hl
    rw [mem_singleton.mp hl, hb]
    exact ⟨Nat.mul_le_mul_right _ hn.le, Nat.mul_le_mul_right _ hbo⟩
  · rw [hi]
    exact ⟨_, rfl, (bytesAt_single payload _).symm⟩


theorem concludes_planSafetensorsReads :
    Concludes (planSafetensorsReads key bits shape payload.length selection output .requireBounded)
      (fun plan => Agrees bits shape payload selection plan
        (selectSafetensorsBytes key bits shape payload selection output .requireBounded))
      fun _ => True := by
  have hb := concludes_plan_axis key width length valid
  cases selection with
  | full => exact agrees_full length
  | indices axis listed => exact hb
  | range axis start finish =>
    cases hs : scalarBytes bits with
    | none =>
      simp only [planSafetensorsReads, selectSafetensorsBytes, hs]
      exact hb
    | some bytes =>
      cases axis with
      | zero =>
        simp only [planSafetensorsReads, selectSafetensorsBytes, hs]
        exact concludes_plan_rows key width length valid rfl
      | succ axis => exact hb
  | contiguous offsetElements selected =>
    cases hs : scalarBytes bits with
    | none =>
      simp only [planSafetensorsReads, hs]
      exact hb
    | some bytes =>
      simp only [planSafetensorsReads, selectSafetensorsBytes, hs]
      exact concludes_plan_contiguous key width length valid rfl hs

end Paths

end Eredu.Checkpoint
