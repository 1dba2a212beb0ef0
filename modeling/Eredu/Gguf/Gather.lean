import Eredu.Gguf.Accepted
import Eredu.Gguf.Selection

/-!
# A part of a tensor is the slice of the whole

Reading the spans of a plan gives the bytes that taking the selected elements out
of the whole payload would give, block by block and in the order of the selection.
-/

namespace Eredu.Gguf

open List RowMajor Word TensorSelectionPlan Reader Effect
open Effect (Concludes)
open RowMajor (chunks slice unpacked gather gathered encodedRuns)

variable (ranges : List (Nat × Nat))

def expanded : List Nat :=
  ranges.flatMap fun range => range' range.1 range.2

theorem expanded_reverse_cons (range : Nat × Nat) (ranges : List (Nat × Nat)) :
    expanded (range :: ranges).reverse = expanded ranges.reverse ++ range' range.1 range.2 := by
  rw [expanded, reverse_cons, flatMap_append, flatMap_singleton]
  rfl

theorem expanded_coalesceIndex (index : Nat) :
    expanded (coalesceIndex ranges index).reverse = expanded ranges.reverse ++ [index] := by
  cases ranges with
  | nil => rfl
  | cons last ranges =>
    rw [coalesceIndex]
    split
    · next hf =>
      subst hf
      rw [expanded_reverse_cons, expanded_reverse_cons, append_assoc, range'_1_concat]
    · rw [expanded_reverse_cons]
      rfl

theorem expanded_coalesceIndices (indices : List Nat) : expanded (coalesceIndices indices) = indices := by
  have run : ∀ ranges : List (Nat × Nat),
      expanded (indices.foldl coalesceIndex ranges).reverse = expanded ranges.reverse ++ indices := by
    induction indices with
    | nil => simp
    | cons index indices ih =>
      intro ranges
      rw [foldl_cons, ih, expanded_coalesceIndex, append_assoc]
      rfl
  exact run []

/-- No range reaches beyond the indices, so that none of its sums overflows. -/
theorem coalesceIndices_le {indices : List Nat} {bound : Nat} (hb : ∀ index ∈ indices, index < bound) :
    ∀ range ∈ coalesceIndices indices, range.1 + range.2 ≤ bound := by
  have run : ∀ ranges : List (Nat × Nat), (∀ range ∈ ranges, range.1 + range.2 ≤ bound) →
      ∀ range ∈ indices.foldl coalesceIndex ranges, range.1 + range.2 ≤ bound := by
    induction indices with
    | nil => exact fun _ => id
    | cons index indices ih =>
      obtain ⟨hfi, ho⟩ := forall_mem_cons.mp hb
      intro ranges hi
      apply ih ho
      unfold coalesceIndex
      split
      · obtain ⟨hla, hr⟩ := forall_mem_cons.mp hi
        split
        · next hf => exact forall_mem_cons.mpr ⟨by dsimp only at hla ⊢; omega, hr⟩
        · exact forall_mem_cons.mpr ⟨by dsimp only; omega, hi⟩
      · exact forall_mem_cons.mpr ⟨by dsimp only; omega, hi⟩
  intro range hl
  exact run [] (by simp) range (mem_reverse.mp hl)

def TensorSelection.selected : TensorSelection → List Nat
  | .range _ start finish => range' start (finish - start)
  | .indices _ listed => listed

/-- The ranges, in units of the axis, hold exactly the selected indices. -/
structure Encoded (selection : TensorSelection) (count multiple : Nat)
    (result : Nat × List (Nat × Nat)) : Prop where
  values : result.1 = selection.selected.length
  indices : selection.selected =
    (expanded result.2).flatMap fun block => range' (block * multiple) multiple
  inside : ∀ range ∈ result.2, range.1 + range.2 ≤ count

variable (tensor : TensorDescriptor)

theorem concludes_encodedBlock (axis multiple : Nat) (chunk : List Nat) :
    Concludes (encodedBlock tensor axis multiple chunk)
      (fun block => chunk = range' (block * multiple) multiple) fun _ => True := by
  unfold encodedBlock
  dsimp only
  split
  · trivial
  rename_i ha
  obtain ⟨hm, hs⟩ := not_or.mp ha
  show chunk = _
  rw [Nat.div_mul_cancel (Nat.dvd_of_mod_eq_zero (not_not.mp hm))]
  exact not_not.mp hs

theorem flatten_eq_of_forall₂ {multiple : Nat} {parts : List (List Nat)} {blocks : List Nat}
    (all : Forall₂ (fun chunk block => chunk = range' (block * multiple) multiple) parts blocks) :
    parts.flatten = blocks.flatMap fun block => range' (block * multiple) multiple := by
  induction all with
  | nil => rfl
  | cons hf _ ih => rw [flatten_cons, flatMap_cons, ih, hf]

theorem concludes_encodedRanges (selection : TensorSelection)
    {count multiple : Nat} (hp : 0 < multiple) :
    Concludes (encodedRanges tensor selection (count * multiple) multiple)
      (Encoded selection count multiple) fun _ => True := by
  cases selection with
  | range axis start finish =>
    unfold encodedRanges
    dsimp only
    split
    · trivial
    rename_i ho
    split
    · trivial
    rename_i ha
    obtain ⟨hs, hf⟩ := not_or.mp ha
    obtain ⟨first, rfl⟩ := Nat.dvd_of_mod_eq_zero (not_not.mp hs)
    obtain ⟨last, rfl⟩ := Nat.dvd_of_mod_eq_zero (not_not.mp hf)
    rw [Nat.mul_div_cancel_left _ hp, Nat.mul_div_cancel_left _ hp]
    have hbo : last ≤ count := by
      apply Nat.le_of_mul_le_mul_left _ hp
      rw [Nat.mul_comm _ count]
      exact Nat.le_of_not_lt (not_or.mp ho).2
    have hi : first ≤ last := by
      apply Nat.le_of_mul_le_mul_left _ hp
      exact Nat.le_of_not_le (not_or.mp ho).1
    have blocks := flatMap_range'_blocks 0 first (last - first) multiple
    simp only [Nat.zero_add] at blocks
    refine ⟨length_range'.symm, ?_, ?_⟩
    · show range' (multiple * first) (multiple * last - multiple * first) =
        (expanded [(first, last - first)]).flatMap _
      rw [expanded, flatMap_singleton, blocks, ← Nat.mul_sub, Nat.mul_comm first,
        Nat.mul_comm (last - first)]
    · intro range hl
      rw [mem_singleton.mp hl]
      omega
  | indices axis indices =>
    unfold encodedRanges
    dsimp only
    split
    · trivial
    rename_i hk
    have hb : ∀ index ∈ indices, index < count * multiple := by
      simpa using (not_or.mp hk).2
    split
    · next hsi =>
      subst hsi
      rw [Nat.mul_one] at hb
      refine ⟨rfl, ?_, coalesceIndices_le hb⟩
      show indices = _
      rw [expanded_coalesceIndices]
      simp
    · split
      · trivial
      rename_i hw
      apply (concludes_mapM fun chunk _ =>
        concludes_encodedBlock tensor axis multiple chunk).bind
      intro blocks all
      have hle : indices.length = indices.length / multiple * multiple :=
        (Nat.div_mul_cancel (Nat.dvd_of_mod_eq_zero (not_not.mp hw))).symm
      have hh := flatten_eq_of_forall₂ all
      rw [flatten_chunks hle] at hh
      refine ⟨rfl, ?_, coalesceIndices_le fun block hl => ?_⟩
      · show indices = _
        rw [expanded_coalesceIndices]
        exact hh
      · apply Nat.lt_of_mul_lt_mul_right
        apply hb
        rw [hh, mem_flatMap]
        exact ⟨block, hl, by simpa using hp⟩

/-- The numbers of a plan, in units of blocks: repetitions, units of the axis and blocks of a unit,
and how many values along the axis are one unit. -/
structure Cut where
  values : Nat
  bytes : Nat
  outer : Nat
  count : Nat
  units : Nat
  multiple : Nat

/-- The dimensions below, at and above the selected one fit the numbers. -/
structure Cut.Fits (cut : Cut) (dimensions : List Nat) (axis : Nat) : Prop where
  split : ∃ low size high, dimensions = low ++ size :: high ∧ high.length = axis ∧
    high.prod = cut.outer ∧ size = cut.count * cut.multiple ∧
    cut.multiple * low.prod = cut.units * cut.values
  values : 0 < cut.values
  bytes : 0 < cut.bytes
  multiple : 0 < cut.multiple

variable {dimensions : List Nat} {axis : Nat}

theorem exists_split (hi : axis < dimensions.length) :
    ∃ low size high, dimensions = low ++ size :: high ∧ high.length = axis ∧
      low.length = dimensions.length - 1 - axis := by
  have hb : dimensions.length - 1 - axis < dimensions.length := by omega
  refine ⟨dimensions.take (dimensions.length - 1 - axis), dimensions.get ⟨_, hb⟩,
    dimensions.drop (dimensions.length - 1 - axis + 1), ?_, ?_, ?_⟩
  · rw [get_eq_getElem, getElem_cons_drop, take_append_drop]
  · rw [length_drop]
    omega
  · rw [length_take]
    omega

def cutAt (values bytes : Nat) (dimensions : List Nat) (position : Nat) : Cut where
  values := values
  bytes := bytes
  outer := ((dimensions.modifyHead (· / values)).drop (position + 1)).prod
  count := (dimensions.modifyHead (· / values)).getD position 0
  units := ((dimensions.modifyHead (· / values)).take position).prod
  multiple := if position = 0 then values else 1

variable {values bytes : Nat}

theorem fits_cutAt (hi : axis < dimensions.length) (hp : 0 < values ∧ 0 < bytes)
    (hd : values ∣ dimensions.headD 0) :
    (cutAt values bytes dimensions (dimensions.length - 1 - axis)).Fits dimensions axis := by
  obtain ⟨low, size, high, rfl, hl, hb⟩ := exists_split hi
  rw [← hb]
  cases low with
  | nil =>
    refine ⟨⟨[], size, high, rfl, hl, rfl, ?_, ?_⟩, hp.1, hp.2, hp.1⟩
    · exact (Nat.div_mul_cancel hd).symm
    · show values * 1 = 1 * values
      rw [mul_comm]
  | cons fastest low =>
    refine ⟨⟨fastest :: low, size, high, rfl, hl, ?_, ?_, ?_⟩, hp.1, hp.2, ?_⟩
    · simp [cutAt]
    · simp [cutAt]
    · have hw : fastest / values * values = fastest := Nat.div_mul_cancel hd
      simp only [cutAt, length_cons, cons_append, modifyHead_cons, take_succ_cons,
        take_left, prod_cons, if_neg (Nat.succ_ne_zero _), one_mul]
      rw [Nat.mul_right_comm, hw]
    · exact Nat.one_pos

variable {cut : Cut}

section

variable (hf : cut.Fits dimensions axis)
include hf

theorem Cut.Fits.prod_eq : dimensions.prod = cut.outer * (cut.count * cut.units) * cut.values := by
  obtain ⟨low, size, high, rfl, -, ho, rfl, hi⟩ := hf.split
  rw [prod_append, prod_cons, ho]
  calc low.prod * (cut.count * cut.multiple * cut.outer)
      = cut.outer * cut.count * (cut.multiple * low.prod) := by ring
    _ = cut.outer * (cut.count * cut.units) * cut.values := by rw [hi]; ring

theorem Cut.Fits.gather_eq {α : Type} (blocks : List Nat)
    (elements : List α) : gather dimensions.reverse axis
        (blocks.flatMap fun block => range' (block * cut.multiple) cut.multiple) elements =
      (gathered cut.outer cut.count (cut.units * cut.values) blocks).map (elements[·]?) := by
  obtain ⟨low, size, high, rfl, hl, ho, rfl, hi⟩ := hf.split
  have hs : (low ++ cut.count * cut.multiple :: high).reverse =
      high.reverse ++ cut.count * cut.multiple :: low.reverse := by simp
  rw [hs, ← hl, ← length_reverse, gather_eq, prod_reverse, prod_reverse, ho, gathered_blocks, hi]

theorem Cut.Fits.size_eq :
    dimensions.getD (dimensions.length - 1 - axis) 0 = cut.count * cut.multiple := by
  obtain ⟨low, size, high, rfl, rfl, -, rfl, -⟩ := hf.split
  have hp : (low ++ cut.count * cut.multiple :: high).length - 1 - high.length = low.length := by
    rw [length_append, length_cons]
    omega
  simp

theorem Cut.Fits.byteLen_eq {byteLen : Nat}
    (hd : byteLen = dimensions.prod / cut.values * cut.bytes) :
    byteLen = cut.outer * (cut.count * cut.units) * cut.bytes := by
  rw [hd, hf.prod_eq, Nat.mul_div_cancel _ hf.values]

end

def spanOf (innerBytes : Nat) (range : Nat × Nat) : RelativeEncodedSpan :=
  ⟨range.1 * innerBytes, range.2 * innerBytes⟩

theorem concludes_relativeSpans (innerBytes : Nat) (ranges : List (Nat × Nat)) :
    Concludes (ranges.mapM (relativeSpan innerBytes))
      (fun spans => spans = ranges.map (spanOf innerBytes)) fun _ => True := by
  have he : ∀ range ∈ ranges, Concludes (relativeSpan innerBytes range)
      (fun span => spanOf innerBytes range = span) fun _ => True := by
    intro range _
    apply (concludes_mul _ _).bind
    rintro offset rfl
    apply (concludes_mul _ _).bind
    rintro length rfl
    exact rfl
  apply (concludes_mapM he).mono
  intro spans all
  rw [← forall₂_map_left_iff, forall₂_eq_eq_eq] at all
  exact all.symm

variable (spans : List RelativeEncodedSpan)

theorem concludes_bytesPerRepetition :
    Concludes (bytesPerRepetition spans) (fun total => total = (spans.map (·.byteLen)).sum) fun _ => True := by
  have run : ∀ start : Nat, Concludes (spans.foldlM (fun total span =>
        orOverflow "selected tensor byte length" (checkedAdd total span.byteLen)) start)
      (fun total => total = start + (spans.map (·.byteLen)).sum) fun _ => True := by
    induction spans with
    | nil => exact fun _ => rfl
    | cons span spans ih =>
      intro start
      apply (concludes_add _ _).bind
      rintro next rfl
      apply (ih _).mono
      rintro total rfl
      rw [map_cons, sum_cons, add_assoc]
  apply (run 0).mono
  rintro total rfl
  exact zero_add _

/-- The pattern that is repeated: the ranges of one repetition, or the whole payload at once. -/
inductive Pattern (cut : Cut) (ranges : List (Nat × Nat)) (byteLen : Nat) :
    Nat → List RelativeEncodedSpan → Prop
  | repeated : Pattern cut ranges byteLen cut.outer (ranges.map (spanOf (cut.units * cut.bytes)))
  | whole : ranges = [(0, cut.count)] → Pattern cut ranges byteLen 1 [⟨0, byteLen⟩]

structure Planned (tensor : TensorDescriptor) (selection : TensorSelection) (cut : Cut)
    (ranges : List (Nat × Nat)) (plan : TensorSelectionPlan) : Prop where
  geometry : tensor.ggmlType.blockAndBytes = .ok (cut.values, cut.bytes)
  fits : cut.Fits tensor.dimensions selection.axis
  byteLen : tensor.byteLen = cut.outer * (cut.count * cut.units) * cut.bytes
  encoded : Encoded selection cut.count cut.multiple (selection.selected.length, ranges)
  offset : plan.sourceDataOffset = tensor.dataOffset
  stride : plan.repetitionStride = cut.count * (cut.units * cut.bytes)
  pattern : Pattern cut ranges tensor.byteLen plan.repetitions plan.relativeSpans
  total : plan.encodedByteLen = (plan.relativeSpans.map (·.byteLen)).sum * plan.repetitions
  descriptor : plan.selectedDescriptor = { tensor with
    dimensions := tensor.dimensions.set (tensor.dimensions.length - 1 - selection.axis)
      selection.selected.length
    byteLen := plan.encodedByteLen }
  required : plan.encodedByteLen = plan.selectedDescriptor.dimensions.prod / cut.values * cut.bytes

theorem isFullCanonical_iff {innerBytes count : Nat} (hp : 0 < innerBytes)
    (ranges : List (Nat × Nat)) :
    isFullCanonical (ranges.map (spanOf innerBytes)) (count * innerBytes) ↔ ranges = [(0, count)] := by
  cases ranges with
  | nil => simp [isFullCanonical]
  | cons range rest =>
    cases rest with
    | nil => simp [isFullCanonical, spanOf, Prod.ext_iff, hp.ne']
    | cons _ _ => simp [isFullCanonical]

theorem pattern_ite (hp : 0 < cut.units * cut.bytes) (ranges : List (Nat × Nat)) (byteLen : Nat) :
    Pattern cut ranges byteLen
      (if isFullCanonical (ranges.map (spanOf (cut.units * cut.bytes)))
        (cut.count * (cut.units * cut.bytes)) then 1 else cut.outer)
      (if isFullCanonical (ranges.map (spanOf (cut.units * cut.bytes)))
        (cut.count * (cut.units * cut.bytes)) then [⟨0, byteLen⟩]
        else ranges.map (spanOf (cut.units * cut.bytes))) := by
  split
  · next hf => exact .whole ((isFullCanonical_iff hp ranges).mp hf)
  · exact .repeated

theorem concludes_maximumRelativeEnd :
    Concludes (maximumRelativeEnd spans) (fun _ => True) fun _ => True := by
  apply concludes_foldlM _ trivial
  intro maximum _ span _
  apply (concludes_orOverflow fun _ _ => trivial).bind
  exact fun _ _ => trivial

theorem concludes_check {plan : TensorSelectionPlan} (tensor : TensorDescriptor) (full : Bool) :
    Concludes (plan.check tensor full) (fun checked => checked = plan ∧ plan.encodedByteLen =
        plan.selectedDescriptor.dimensions.prod / plan.alignment.blockValues *
          plan.alignment.blockBytes) fun _ => True := by
  apply (concludes_product _ _).bind
  rintro elements ⟨rfl, -⟩
  apply (concludes_mul _ _).bind
  rintro expected rfl
  split
  · trivial
  rename_i hs
  apply (concludes_maximumRelativeEnd _).bind
  intro last _
  split
  · trivial
  apply (concludes_orOverflow fun _ _ => trivial).bind
  intro finalOffset _
  apply (concludes_orOverflow fun _ _ => trivial).bind
  intro finalEnd _
  apply (concludes_orOverflow fun _ _ => trivial).bind
  intro tensorEnd _
  split
  · trivial
  · exact ⟨rfl, (not_not.mp hs).symm⟩

theorem concludes_new (selection : TensorSelection) :
    Concludes (new tensor selection)
      (fun plan => ∃ cut ranges, Planned tensor selection cut ranges plan) fun _ => True := by
  unfold new
  dsimp only
  split
  · trivial
  rename_i hra
  split
  · trivial
  rename_i hn
  apply (concludes_blockAndBytes _).bind
  rintro ⟨values, bytes⟩ hg
  split
  · trivial
  rename_i hd
  apply (concludes_product _ _).bind
  rintro elements ⟨rfl, -⟩
  apply (concludes_mul _ _).bind
  rintro length rfl
  split
  · trivial
  rename_i hde
  have hf := fits_cutAt (not_le.mp hra) (GgmlType.blockAndBytes_pos hg)
    (Nat.dvd_of_mod_eq_zero (not_not.mp hd))
  rw [hf.size_eq]
  apply (concludes_encodedRanges tensor selection hf.multiple).bind
  rintro ⟨selected, ranges⟩ he
  obtain rfl : selected = selection.selected.length := he.values
  apply (concludes_product _ _).bind
  rintro innerUnits ⟨hu, -⟩
  apply (concludes_mul _ _).bind
  rintro innerBytes rfl
  apply (concludes_mul _ _).bind
  rintro stride rfl
  apply (concludes_product _ _).bind
  rintro repetitions ⟨ho, -⟩
  apply (concludes_relativeSpans _ ranges).bind
  rintro spans rfl
  apply (concludes_bytesPerRepetition _).bind
  rintro perRepetition rfl
  apply (concludes_mul _ _).bind
  rintro encodedByteLen rfl
  apply (concludes_check tensor _).mono
  rintro plan ⟨rfl, hr⟩
  have hb := (hf.byteLen_eq (not_not.mp hde).symm)
  subst hu ho
  refine ⟨_, ranges, hg, hf, hb, he, rfl, rfl, ?_, rfl, rfl, hr⟩
  apply pattern_ite
  apply pos_of_ne_zero
  intro hno
  apply (not_or.mp hn).1
  rw [hb, mul_assoc, mul_assoc, hno, mul_zero, mul_zero]

variable (plan : TensorSelectionPlan)

def spansOf : List EncodedSpan :=
  (range plan.repetitions).flatMap fun repetition => plan.relativeSpans.map fun span =>
    ⟨plan.sourceDataOffset + repetition * plan.repetitionStride + span.offset, span.byteLen⟩

theorem sum_byteLen_spansOf : ((spansOf plan).map (·.byteLen)).sum =
      (plan.relativeSpans.map (·.byteLen)).sum * plan.repetitions := by
  unfold spansOf
  induction plan.repetitions with
  | zero => simp
  | succ repetitions ih =>
    rw [range_succ, flatMap_append, map_append, sum_append, ih,
      flatMap_singleton, map_map, Nat.mul_succ]
    rfl

section Planned

variable {tensor : TensorDescriptor} {selection : TensorSelection} {cut : Cut}
  {ranges : List (Nat × Nat)} {plan : TensorSelectionPlan}
  (planned : Planned tensor selection cut ranges plan)

include planned

theorem Planned.inside {repetition : Nat} (hl : repetition < plan.repetitions)
    {span : RelativeEncodedSpan} (hm : span ∈ plan.relativeSpans) :
    repetition * plan.repetitionStride + span.offset + span.byteLen ≤ tensor.byteLen := by
  have hp := planned.pattern
  rw [planned.stride]
  generalize plan.repetitions = repetitions at *
  generalize plan.relativeSpans = spans at *
  cases hp with
  | whole _ =>
    obtain rfl : repetition = 0 := by omega
    rw [mem_singleton.mp hm]
    simp
  | repeated =>
    obtain ⟨range, hc, rfl⟩ := mem_map.mp hm
    have hb := planned.encoded.inside range hc
    rw [planned.byteLen]
    calc repetition * (cut.count * (cut.units * cut.bytes)) + range.1 * (cut.units * cut.bytes) +
          range.2 * (cut.units * cut.bytes)
        = (repetition * cut.count + (range.1 + range.2)) * (cut.units * cut.bytes) := by ring
      _ ≤ (repetition * cut.count + cut.count) * (cut.units * cut.bytes) :=
          Nat.mul_le_mul_right _ (Nat.add_le_add_left hb _)
      _ = (repetition + 1) * (cut.count * (cut.units * cut.bytes)) := by ring
      _ ≤ cut.outer * (cut.count * (cut.units * cut.bytes)) := Nat.mul_le_mul_right _ hl
      _ = cut.outer * (cut.count * cut.units) * cut.bytes := by ring

theorem Planned.span_inside {span : EncodedSpan} (hl : span ∈ spansOf plan) :
    tensor.dataOffset ≤ span.offset ∧
      span.offset + span.byteLen ≤ tensor.dataOffset + tensor.byteLen := by
  obtain ⟨repetition, hb, hm⟩ := mem_flatMap.mp hl
  obtain ⟨relative, hc, rfl⟩ := mem_map.mp hm
  have hi := planned.inside (mem_range.mp hb) hc
  dsimp only
  rw [planned.offset]
  omega

/-- No sum or product of the span iterator overflows. -/
theorem Planned.encodedSpans_eq (hw : tensor.dataOffset + tensor.byteLen ≤ maximum) :
    plan.encodedSpans = pure (spansOf plan) := by
  have he : ∀ repetition ∈ range plan.repetitions,
      plan.relativeSpans.mapM (plan.spanAt repetition) =
        (pure (plan.relativeSpans.map fun span =>
          ⟨plan.sourceDataOffset + repetition * plan.repetitionStride + span.offset, span.byteLen⟩) :
          PlanM (List EncodedSpan)) := by
    intro repetition hl
    apply mapM_eq_pure
    intro span hm
    have hi := planned.inside (mem_range.mp hl) hm
    have hs := planned.offset
    unfold spanAt mulUnchecked addUnchecked
    rw [if_pos (by omega), pure_bind, if_pos (by omega), pure_bind, if_pos (by omega)]
    rfl
  unfold encodedSpans
  rw [mapM_eq_pure he]
  rfl

theorem Planned.unpacked_eq {contents : List UInt8}
    (hi : tensor.dataOffset + tensor.byteLen ≤ contents.length) : (unpacked cut.values cut.bytes
        ((spansOf plan).flatMap fun span => slice span.offset span.byteLen contents)).map some =
      gather tensor.dimensions.reverse selection.axis selection.selected
        (unpacked cut.values cut.bytes (slice tensor.dataOffset tensor.byteLen contents)) := by
  have hl : (slice tensor.dataOffset tensor.byteLen contents).length =
      cut.outer * (cut.count * cut.units) * cut.bytes := by
    rw [length_slice hi, planned.byteLen]
  have hpa : (spansOf plan).flatMap (fun span => slice span.offset span.byteLen contents) =
      (range plan.repetitions).flatMap fun repetition => plan.relativeSpans.flatMap fun span =>
        slice (repetition * plan.repetitionStride + span.offset) span.byteLen
          (slice tensor.dataOffset tensor.byteLen contents) := by
    unfold spansOf
    rw [flatMap_assoc]
    apply flatMap_congr
    intro repetition hb
    rw [flatMap_map]
    apply flatMap_congr
    intro span hm
    rw [slice_slice (planned.inside (mem_range.mp hb) hm), planned.offset, add_assoc]
  rw [hpa, planned.encoded.indices, planned.fits.gather_eq]
  generalize slice tensor.dataOffset tensor.byteLen contents = payload at *
  have hp := planned.pattern
  rw [planned.stride]
  generalize plan.repetitions = repetitions at *
  generalize plan.relativeSpans = spans at *
  cases hp with
  | repeated =>
    simp only [flatMap_map]
    exact unpacked_encodedRuns planned.fits.bytes hl planned.encoded.inside
  | whole all =>
    have he : expanded ranges = range' 0 cut.count := by
      rw [all, expanded, flatMap_singleton]
    have hs : payload.length = tensor.byteLen := hl.trans planned.byteLen.symm
    have ht : (unpacked cut.values cut.bytes payload).length = _ :=
      length_unpacked planned.fits.bytes hl
    have hc : cut.outer * (cut.count * (cut.units * cut.values)) =
        (unpacked cut.values cut.bytes payload).length := by
      rw [ht]
      ring
    rw [he, gathered_all, hc, map_some_all, range_one,
      flatMap_singleton, flatMap_singleton, zero_mul, ← hs]
    exact congrArg (fun bytes => (unpacked cut.values cut.bytes bytes).map some) (slice_all payload)

end Planned

structure SpanPlanned (tensor : TensorDescriptor) (selection : DenseTensorSpan) (values bytes : Nat)
    (plan : DenseTensorSpanPlan) : Prop where
  geometry : tensor.ggmlType.blockAndBytes = .ok (values, bytes)
  byteLen : ∃ total, tensor.byteLen = total * bytes ∧
    selection.offsetElements / values + selection.shape.prod / values ≤ total
  start : values ∣ selection.offsetElements
  count : values ∣ selection.shape.prod
  span : plan.encodedSpan = ⟨tensor.dataOffset + selection.offsetElements / values * bytes,
    selection.shape.prod / values * bytes⟩
  descriptor : plan.selectedDescriptor = { tensor with
    dimensions := selection.shape.reverse
    relativeOffset := tensor.relativeOffset + selection.offsetElements / values * bytes
    dataOffset := plan.encodedSpan.offset
    byteLen := plan.encodedSpan.byteLen }

theorem concludes_denseNew (tensor : TensorDescriptor) (selection : DenseTensorSpan) :
    Concludes (DenseTensorSpanPlan.new tensor selection)
      (fun plan => ∃ values bytes, SpanPlanned tensor selection values bytes plan) fun _ => True := by
  apply (concludes_product _ _).bind
  rintro elements ⟨rfl, -⟩
  apply (concludes_blockAndBytes _).bind
  rintro ⟨values, bytes⟩ hg
  dsimp only
  split
  · trivial
  apply (concludes_mul _ _).bind
  rintro expected rfl
  split
  · trivial
  rename_i hd
  apply (concludes_product _ _).bind
  rintro selected ⟨rfl, -⟩
  apply (concludes_add _ _).bind
  rintro selectedEnd rfl
  split
  · trivial
  rename_i he
  split
  · trivial
  rename_i ha
  split
  · trivial
  apply (concludes_mul _ _).bind
  rintro byteOffset rfl
  apply (concludes_mul _ _).bind
  rintro byteLen rfl
  apply (concludes_add _ _).bind
  rintro offset rfl
  apply (concludes_orOverflow fun _ _ => trivial).bind
  intro finish _
  apply (concludes_orOverflow fun _ _ => trivial).bind
  intro tensorEnd _
  split
  · trivial
  apply (concludes_add _ _).bind
  rintro relativeOffset rfl
  obtain ⟨hst, hc⟩ := not_or.mp ha
  have hs := Nat.dvd_of_mod_eq_zero (not_not.mp hst)
  refine ⟨values, bytes, hg, ⟨_, (not_not.mp hd).symm, ?_⟩, hs,
    Nat.dvd_of_mod_eq_zero (not_not.mp hc), rfl, rfl⟩
  rw [← Nat.add_div_of_dvd_right hs]
  exact Nat.div_le_div_right (not_lt.mp he)

variable {tensor : TensorDescriptor} {selection : DenseTensorSpan} {plan : DenseTensorSpanPlan}

theorem SpanPlanned.inside (planned : SpanPlanned tensor selection values bytes plan) :
    selection.offsetElements / values * bytes + selection.shape.prod / values * bytes ≤
      tensor.byteLen := by
  obtain ⟨total, hb, hi⟩ := planned.byteLen
  rw [hb, ← add_mul]
  exact Nat.mul_le_mul_right _ hi

theorem SpanPlanned.unpacked_eq (planned : SpanPlanned tensor selection values bytes plan)
    {contents : List UInt8} (hi : tensor.dataOffset + tensor.byteLen ≤ contents.length) :
    (unpacked values bytes
        (slice plan.encodedSpan.offset plan.encodedSpan.byteLen contents)).map some =
      (coordinates selection.shape).map fun coords =>
        (unpacked values bytes (slice tensor.dataOffset tensor.byteLen contents))[
          selection.offsetElements + ravel selection.shape coords]? := by
  have hp := (GgmlType.blockAndBytes_pos planned.geometry).2
  obtain ⟨total, hby, hb⟩ := planned.byteLen
  have hl : (slice tensor.dataOffset tensor.byteLen contents).length = total * bytes := by
    rw [length_slice hi, hby]
  have hpl := congrArg (map fun place =>
      (unpacked values bytes (slice tensor.dataOffset tensor.byteLen contents))[place]?)
    (map_ravel_coordinates selection.shape selection.offsetElements)
  rw [map_map] at hpl
  refine Eq.trans ?_ hpl.symm
  rw [planned.span]
  rw [← slice_slice planned.inside, unpacked_slice hp hl hb,
    map_some_slice, Nat.div_mul_cancel planned.start, Nat.div_mul_cancel planned.count]
  rw [length_unpacked hp hl, ← add_mul]
  exact Nat.mul_le_mul_right _ hb

variable (reader : Reader)

def Reader.payload (tensor : TensorDescriptor) : List UInt8 :=
  slice tensor.dataOffset tensor.byteLen reader.contents

/-- Reading a selection gives the selected elements of the whole payload, in the caller's order. -/
structure ReadsSelection (tensor : TensorDescriptor) (selection : TensorSelection)
    (plan : TensorSelectionPlan) (spans : List EncodedSpan) (values bytes : Nat) : Prop where
  geometry : tensor.ggmlType.blockAndBytes = .ok (values, bytes)
  /-- No addition or multiplication of the span iterator overflows. -/
  iterates : plan.encodedSpans.outcome () = (.ok spans, ())
  inside : ∀ span ∈ spans, tensor.dataOffset ≤ span.offset ∧
    span.offset + span.byteLen ≤ tensor.dataOffset + tensor.byteLen
  total : (spans.map (·.byteLen)).sum = plan.encodedByteLen
  descriptor : plan.selectedDescriptor.byteLen = plan.encodedByteLen ∧
    plan.selectedDescriptor.byteLen = plan.selectedDescriptor.dimensions.prod / values * bytes ∧
    plan.selectedDescriptor.dimensions =
      tensor.dimensions.set (tensor.dimensions.length - 1 - selection.axis) selection.selected.length
  gathers : (unpacked values bytes
      (spans.flatMap fun span => slice span.offset span.byteLen reader.contents)).map some =
    gather tensor.dimensions.reverse selection.axis selection.selected
      (unpacked values bytes (reader.payload tensor))
  /-- The reader returns those bytes, if it may allocate them. -/
  reads : (reader.readRawPlan plan).outcome () =
    (if reader.limits.maxAllocationBytes.toNat < plan.encodedByteLen then
      .error (.error (.limit "tensor allocation" plan.encodedByteLen
        reader.limits.maxAllocationBytes.toNat))
    else .ok (spans.flatMap fun span => slice span.offset span.byteLen reader.contents), ())

/-- Reading an interval gives its elements of the whole payload, in the order of its shape. -/
structure ReadsSpan (tensor : TensorDescriptor) (selection : DenseTensorSpan)
    (plan : DenseTensorSpanPlan) (values bytes : Nat) : Prop where
  geometry : tensor.ggmlType.blockAndBytes = .ok (values, bytes)
  inside : tensor.dataOffset ≤ plan.encodedSpan.offset ∧
    plan.encodedSpan.offset + plan.encodedSpan.byteLen ≤ tensor.dataOffset + tensor.byteLen
  descriptor : plan.selectedDescriptor.byteLen = plan.encodedSpan.byteLen ∧
    plan.selectedDescriptor.dimensions = selection.shape.reverse ∧
    plan.encodedSpan.byteLen = selection.shape.prod / values * bytes
  gathers : (unpacked values bytes
      (slice plan.encodedSpan.offset plan.encodedSpan.byteLen reader.contents)).map some =
    (coordinates selection.shape).map fun coords =>
      (unpacked values bytes (reader.payload tensor))[
        selection.offsetElements + ravel selection.shape coords]?
  reads : reader.readDenseSpan plan =
    if reader.limits.maxAllocationBytes.toNat < plan.encodedSpan.byteLen then
      .error (.limit "tensor allocation" plan.encodedSpan.byteLen
        reader.limits.maxAllocationBytes.toNat)
    else .ok (slice plan.encodedSpan.offset plan.encodedSpan.byteLen reader.contents)

variable {reader : Reader}

theorem readAt_eq {offset length : Nat} (hi : offset + length ≤ reader.contents.length) :
    reader.readAt offset length = .ok (slice offset length reader.contents) := by
  rw [readAt, if_pos (.inl hi)]
  rfl

theorem mapM_readAt {spans : List EncodedSpan}
    (hi : ∀ span ∈ spans, span.offset + span.byteLen ≤ reader.contents.length) :
    spans.mapM (fun span => reader.readAt span.offset span.byteLen) =
      .ok (spans.map fun span => slice span.offset span.byteLen reader.contents) := by
  induction spans with
  | nil => rfl
  | cons span spans ih =>
    obtain ⟨hf, ho⟩ := forall_mem_cons.mp hi
    rw [mapM_cons, readAt_eq hf, ih ho]
    rfl

theorem Planned.reads {selection : TensorSelection} {ranges : List (Nat × Nat)}
    {plan : TensorSelectionPlan} (planned : Planned tensor selection cut ranges plan)
    (hw : tensor.dataOffset + tensor.byteLen ≤ maximum)
    (hi : tensor.dataOffset + tensor.byteLen ≤ reader.contents.length) :
    ReadsSelection reader tensor selection plan (spansOf plan) cut.values cut.bytes where
  geometry := planned.geometry
  iterates := by
    rw [planned.encodedSpans_eq hw]
    rfl
  inside _ := planned.span_inside
  total := by rw [sum_byteLen_spansOf, planned.total]
  descriptor := by
    have hr := planned.required
    rw [planned.descriptor] at hr ⊢
    exact ⟨rfl, hr, rfl⟩
  gathers := planned.unpacked_eq hi
  reads := by
    have he := mapM_readAt fun span hl =>
      ((planned.span_inside hl).2.trans hi : span.offset + span.byteLen ≤ _)
    unfold readRawPlan checkLimit
    rw [planned.encodedSpans_eq hw, pure_bind, he]
    split
    · rfl
    · rfl

theorem SpanPlanned.reads (planned : SpanPlanned tensor selection values bytes plan)
    (hi : tensor.dataOffset + tensor.byteLen ≤ reader.contents.length) :
    ReadsSpan reader tensor selection plan values bytes := by
  have hw : tensor.dataOffset ≤ plan.encodedSpan.offset ∧
      plan.encodedSpan.offset + plan.encodedSpan.byteLen ≤ tensor.dataOffset + tensor.byteLen := by
    have hb := planned.inside
    rw [planned.span]
    dsimp only
    omega
  refine ⟨planned.geometry, hw, ?_, planned.unpacked_eq hi, ?_⟩
  · rw [planned.descriptor, planned.span]
    exact ⟨rfl, rfl, rfl⟩
  · unfold readDenseSpan checkLimit
    rw [readAt_eq (hw.2.trans hi)]
    split
    · rfl
    · rfl

/-- A selective read equals a full read followed by taking the selected elements. -/
theorem selective_read_gathers {contents : List UInt8} {limits : Limits} {reader : Reader}
    (accepted : withLimits contents limits = .ok reader) {tensor : TensorDescriptor}
    (listed : tensor ∈ reader.tensors) : (∀ selection plan, new tensor selection = .ok plan →
      ∃ spans values bytes, ReadsSelection reader tensor selection plan spans values bytes) ∧
    (∀ selection plan, DenseTensorSpanPlan.new tensor selection = .ok plan →
      ∃ values bytes, ReadsSpan reader tensor selection plan values bytes) := by
  have hf := run_ok (Prod.ext accepted rfl)
  obtain ⟨dataStart, -, hpl⟩ := hf.placed
  have hp := hpl tensor listed
  have hi := hp.inside
  rw [← hf.file.1] at hi
  constructor
  · intro selection plan hb
    obtain ⟨cut, ranges, planned⟩ := (concludes_new tensor selection).of_ok hb
    exact ⟨_, _, _, planned.reads hp.word hi⟩
  · intro selection plan hb
    obtain ⟨values, bytes, planned⟩ := (concludes_denseNew tensor selection).of_ok hb
    exact ⟨_, _, planned.reads hi⟩

def matrixFile : List UInt8 :=
  magicLittle ++ Endian.little.put 4 3 ++ countBytes .little 3 1 ++ countBytes .little 3 0 ++
    stringBytes .little 3 "m" ++ Endian.little.put 4 2 ++ Endian.little.put 8 2 ++
    Endian.little.put 8 2 ++ Endian.little.put 4 24 ++ Endian.little.put 8 0 ++
    replicate 31 0 ++ [1, 2, 3, 4]

def matrixTensor : TensorDescriptor := ⟨"m", [2, 2], .i8, 0, 96, 4⟩

/-- The rows again in the order second, first, second. -/
theorem selective_read_rows :
    ∃ reader plan spans values bytes, withLimits matrixFile .default = .ok reader ∧
      matrixTensor ∈ reader.tensors ∧ new matrixTensor (.indices 0 [1, 0, 1]) = .ok plan ∧
      ReadsSelection reader matrixTensor (.indices 0 [1, 0, 1]) plan spans values bytes := by
  have ht : (withLimits matrixFile .default).toOption.map (·.tensors) =
      some [matrixTensor] := by decide +kernel
  have hb : (new matrixTensor (.indices 0 [1, 0, 1])).isOk = true := by
    decide +kernel
  cases ha : withLimits matrixFile .default with
  | error fault =>
    rw [ha] at ht
    cases ht
  | ok reader =>
    rw [ha] at ht
    have hl : matrixTensor ∈ reader.tensors := by
      rw [show reader.tensors = [matrixTensor] from Option.some.inj ht]
      exact mem_singleton.mpr rfl
    cases hm : new matrixTensor (.indices 0 [1, 0, 1]) with
    | error cause =>
      rw [hm] at hb
      cases hb
    | ok plan =>
      obtain ⟨spans, values, bytes, hr⟩ :=
        (selective_read_gathers ha hl).1 (.indices 0 [1, 0, 1]) plan hm
      exact ⟨reader, plan, spans, values, bytes, rfl, hl, rfl, hr⟩

end Eredu.Gguf
