import Eredu.Gguf.Encoding

/-!
# Writing a file and reading it back

The writer lays the tensors out one behind the other, and the reader finds every
one of them where the writer put it. Together with the encoding of the header this
gives the round trip for whole files.
-/

namespace Eredu.Gguf

open List Word Codec Reader Pairwise
open Codec (Reads Emits)
open Effect

/-- Tensors with the offsets the writer gives them, from a position on. -/
def LaidOut (alignment : Nat) : Nat → List (TensorInput × Nat) → Prop
  | _, [] => True
  | next, (tensor, offset) :: rest =>
    Aligned next alignment offset ∧ expectedBytes tensor = .ok tensor.data.length ∧
      offset + tensor.data.length ≤ maximum ∧
      LaidOut alignment (offset + tensor.data.length) rest

structure Checked (alignment : Nat) (names : List String) (next : Nat) (tensors : List TensorInput)
    (offsets : List Nat) : Prop where
  length : offsets.length = tensors.length
  laidOut : LaidOut alignment next (tensors.zip offsets)
  named : ∀ tensor ∈ tensors, tensor.name ≠ ""
  distinct : names.Nodup → (names ++ tensors.map (·.name)).Nodup

variable {alignment : Nat}

theorem concludes_layout (hw : alignment ≤ maximum) (names : List String) (next : Nat)
    (tensors : List TensorInput) :
    Concludes (layout alignment names next tensors) (Checked alignment names next tensors)
      fun _ => True := by
  induction tensors generalizing names next with
  | nil => exact ⟨rfl, trivial, by simp, by simp⟩
  | cons tensor tensors ih =>
    unfold layout
    split
    · trivial
    rename_i hn
    split
    · trivial
    rename_i hf
    cases he : expectedBytes tensor with
    | error cause => trivial
    | ok bytes =>
      show Concludes (if bytes ≠ tensor.data.length then _ else _) _ _
      split
      · trivial
      rename_i hs
      rw [not_not] at hs
      subst hs
      apply (concludes_alignUp hw).bind
      intro offset ha
      apply (concludes_orOverflow fun sum had => checkedAdd_eq_some.mp had).bind
      rintro sum ⟨rfl, hfi⟩
      apply (ih (names ++ [tensor.name]) (offset + tensor.data.length)).bind
      intro offsets hc
      refine ⟨by rw [length_cons, length_cons, hc.length],
        ⟨ha, he, hfi, hc.laidOut⟩,
        forall_mem_cons.mpr ⟨by simpa using hn, hc.named⟩, fun hu => ?_⟩
      rw [map_cons, append_cons]
      apply hc.distinct
      refine nodup_append.mpr ⟨hu, nodup_singleton _, fun name hl other hsi => ?_⟩
      rw [mem_singleton.mp hsi]
      rintro rfl
      exact hf (contains_iff_mem.mpr hl)

def payloadBytes : Nat → List (TensorInput × Nat) → List UInt8
  | _, [] => []
  | relative, (tensor, offset) :: rest =>
    replicate (offset - relative) 0 ++
      (tensor.data ++ payloadBytes (offset + tensor.data.length) rest)

theorem seekFar_yields {rounds amount : Nat} (hp : 0 < amount)
    (he : amount ≤ (rounds + 1) * maximumSeek) (sink : Codec.Sink) :
    (seekFar rounds amount).Yields sink
      (fun rest after => (0 < rest ∧ rest ≤ maximumSeek) ∧ after.contents = sink.contents ∧
        after.position + rest = sink.position + amount) (fun _ _ => True) := by
  induction rounds generalizing amount sink with
  | zero => exact ⟨⟨hp, by simpa using he⟩, rfl, rfl⟩
  | succ rounds ih =>
    unfold seekFar
    split
    · next far =>
      rw [yields_bind]
      apply (seekForward_yields _ maximumSeek sink).mono _ (fun _ _ => id)
      rintro _ _ rfl
      have hl : amount - maximumSeek ≤ (rounds + 1) * maximumSeek := by
        rw [Nat.succ_mul] at he
        omega
      apply (ih (by omega) hl _).mono _ (fun _ _ => id)
      rintro rest after ⟨hb, hs, hpo⟩
      refine ⟨hb, hs, ?_⟩
      dsimp only at hpo
      omega
    · next hn => exact ⟨⟨hp, not_lt.mp hn⟩, rfl, rfl⟩

theorem emits_extendWithZeros (amount : Nat) :
    Emits (extendWithZeros amount) (replicate amount 0) fun _ => True := by
  intro contents hr
  unfold extendWithZeros
  split
  · next hn =>
    subst hn
    exact emits_pure () trivial contents hr
  · next hso =>
    have he : amount ≤ (amount / maximumSeek + 1) * maximumSeek :=
      (Nat.lt_mul_of_div_lt (Nat.lt_succ_self _) maximumSeek_pos).le
    rw [yields_bind]
    apply (seekFar_yields (pos_of_ne_zero hso) he _).mono _ (fun _ _ => id)
    rintro rest ⟨held, position⟩ ⟨⟨hp, -⟩, hs, hm⟩
    change held = contents at hs
    change position + rest = contents.length + amount at hm
    subst hs
    -- One byte is written behind a gap of zeros.
    have hl : ∀ start, start + 1 = held.length + amount →
        (writeAll (.io 0) [0] : WriteM Unit).Yields ⟨held, start⟩
          (fun _ after => (after = Codec.Sink.holding (held ++ replicate amount 0) ∧
            (held ++ replicate amount 0).length ≤ lastPosition) ∧ True)
          (fun _ _ => True) := by
      intro start hst
      obtain ⟨gap, rfl⟩ : ∃ gap, start = held.length + gap := ⟨start - held.length, by omega⟩
      obtain rfl : amount = gap + 1 := by omega
      apply (writeAll_yields_gap _ held gap).mono _ (fun _ _ => id)
      rintro _ _ ⟨rfl, hfi⟩
      rw [replicate_succ']
      refine ⟨⟨?_, ?_⟩, trivial⟩
      · simp [Codec.Sink.holding, add_assoc]
      · simpa [add_assoc] using hfi
    split
    · rw [yields_bind]
      apply (seekForward_yields _ (rest - 1) _).mono _ (fun _ _ => id)
      rintro _ _ rfl
      exact hl (position + (rest - 1)) (by omega)
    · exact hl position (by omega)

theorem emits_payloads (dataStart relative : Nat) (placed : List (TensorInput × Nat)) :
    Emits (payloads dataStart relative placed) (payloadBytes relative placed) fun _ => True := by
  induction placed generalizing relative with
  | nil => exact emits_pure () trivial
  | cons item placed ih =>
    obtain ⟨tensor, offset⟩ := item
    apply (emits_extendWithZeros (offset - relative)).bind
    intro _ _
    apply (emits_writeAll _ tensor.data).bind
    intro _ _
    exact ih (offset + tensor.data.length)

variable {placed : List (TensorInput × Nat)} {relative : Nat} {tensor : TensorInput}

theorem payload_found (hla : LaidOut alignment relative placed)
    {offset : Nat} (hl : (tensor, offset) ∈ placed) :
    ∃ before after, payloadBytes relative placed = before ++ (tensor.data ++ after) ∧
      relative + before.length = offset := by
  induction placed generalizing relative with
  | nil => cases hl
  | cons item placed ih =>
    obtain ⟨first, start⟩ := item
    obtain ⟨ha, -, -, hr⟩ := hla
    have hab := ha.above
    rcases mem_cons.mp hl with hs | hlr
    · obtain ⟨rfl, rfl⟩ := Prod.mk.inj hs
      refine ⟨replicate (offset - relative) 0, _, rfl, ?_⟩
      rw [length_replicate]
      omega
    · obtain ⟨before, after, hf, hp⟩ := ih hr hlr
      refine ⟨replicate (start - relative) 0 ++ (first.data ++ before), after, ?_, ?_⟩
      · rw [payloadBytes, hf]
        simp only [append_assoc]
      · simp only [length_append, length_replicate]
        omega

def descriptorOf (dataStart : Nat) (placed : TensorInput × Nat) : TensorDescriptor :=
  ⟨placed.1.name, placed.1.dimensions, placed.1.ggmlType, placed.2, dataStart + placed.2,
    placed.1.data.length⟩

theorem product_eq_ok_of {computing other : String} {dimensions : List Nat} {total : Nat}
    (run : product computing dimensions = .ok total) : product other dimensions = .ok total := by
  unfold product at *
  generalize 1 = start at *
  induction dimensions generalizing start with
  | nil => exact run
  | cons dimension dimensions ih =>
    rw [foldlM_cons] at run ⊢
    cases hs : checkedMul start dimension with
    | none =>
      rw [hs] at run
      cases run
    | some next =>
      rw [hs] at run
      exact ih next run

theorem expectedBytes_eq_ok {length : Nat} (he : expectedBytes tensor = .ok length) :
    ∃ elements block bytes, product "tensor elements" tensor.dimensions = .ok elements ∧
      tensor.ggmlType.blockAndBytes = .ok (block, bytes) ∧
      ¬ (elements ≠ 0 ∧ (tensor.dimensions.headD 1 % block ≠ 0 ∨ elements % block ≠ 0)) ∧
      checkedMul (elements / block) bytes = some length := by
  unfold expectedBytes at he
  cases elements : product "tensor elements" tensor.dimensions with
  | error cause =>
    rw [elements] at he
    cases he
  | ok total =>
    cases hg : tensor.ggmlType.blockAndBytes with
    | error cause =>
      rw [elements, hg] at he
      cases he
    | ok pair =>
      obtain ⟨block, bytes⟩ := pair
      rw [elements, hg] at he
      change (if _ then _ else _) = _ at he
      split at he
      · cases he
      · next hd => exact ⟨total, block, bytes, rfl, rfl, hd, orOverflow_eq_ok.mp he⟩

variable {dataStart : Nat} {fileSize : Nat}

theorem describe_rawOf {placed : TensorInput × Nat}
    (he : expectedBytes placed.1 = .ok placed.1.data.length) (ha : alignment ∣ placed.2)
    (hi : dataStart + placed.2 + placed.1.data.length ≤ fileSize) (hwo : fileSize ≤ maximum) :
    describe (rawOf placed) alignment dataStart fileSize = .ok (descriptorOf dataStart placed) := by
  obtain ⟨elements, block, bytes, ht, hg, hd, hl⟩ := expectedBytes_eq_ok he
  have hs : checkedAdd dataStart placed.2 = some (dataStart + placed.2) :=
    checkedAdd_eq_some.mpr ⟨rfl, by omega⟩
  have hf : checkedAdd (dataStart + placed.2) placed.1.data.length =
      some (dataStart + placed.2 + placed.1.data.length) :=
    checkedAdd_eq_some.mpr ⟨rfl, by omega⟩
  have hw : ¬ (elements ≠ 0 ∧ ((rawOf placed).dimensions.headD 1 % block ≠ 0 ∨
      elements % block ≠ 0)) := hd
  have hm : ¬ (rawOf placed).relativeOffset % alignment ≠ 0 :=
    not_not.mpr (Nat.mod_eq_zero_of_dvd ha)
  unfold describe
  rw [if_neg hm]
  show (product "tensor element count" placed.1.dimensions >>= _) = _
  rw [product_eq_ok_of ht]
  show (placed.1.ggmlType.blockAndBytes >>= _) = _
  rw [hg]
  show (if _ then _ else _) = _
  rw [if_neg hw]
  show (orOverflow _ (checkedMul (elements / block) bytes) >>= _) = _
  rw [hl]
  show (orOverflow _ (checkedAdd dataStart placed.2) >>= _) = _
  rw [hs]
  show (orOverflow _ (checkedAdd (dataStart + placed.2) placed.1.data.length) >>= _) = _
  rw [hf]
  show (if fileSize < dataStart + placed.2 + placed.1.data.length then _ else _) = _
  rw [if_neg (not_lt.mpr hi)]
  rfl

theorem laidOut_pairwise (hl : LaidOut alignment relative placed) :
    (∀ item ∈ placed, relative ≤ item.2) ∧
      placed.Pairwise fun first second => first.2 + first.1.data.length ≤ second.2 := by
  induction placed generalizing relative with
  | nil => exact ⟨by simp, nil⟩
  | cons item placed ih =>
    obtain ⟨tensor, offset⟩ := item
    obtain ⟨ha, -, -, hr⟩ := hl
    obtain ⟨hb, hap⟩ := ih hr
    have hab := ha.above
    refine ⟨forall_mem_cons.mpr ⟨hab, fun other hli => ?_⟩, pairwise_cons.mpr ⟨hb, hap⟩⟩
    have hla := hb other hli
    omega

theorem laidOut_mem (hla : LaidOut alignment relative placed) {item : TensorInput × Nat}
    (hl : item ∈ placed) : alignment ∣ item.2 ∧ expectedBytes item.1 = .ok item.1.data.length ∧
      item.2 + item.1.data.length ≤ maximum := by
  induction placed generalizing relative with
  | nil => cases hl
  | cons first placed ih =>
    obtain ⟨ha, he, hf, hr⟩ := hla
    rcases mem_cons.mp hl with rfl | hlr
    · exact ⟨ha.multiple, he, hf⟩
    · exact ih hr hlr

theorem checkNeighbours_of_pairwise {ranges : List DataRange}
    (ha : ranges.Pairwise fun first second => first.finish ≤ second.start) :
    checkNeighbours ranges = .ok () := by
  induction ranges with
  | nil => rfl
  | cons first rest ih =>
    cases rest with
    | nil => rfl
    | cons second rest =>
      obtain ⟨hb, ho⟩ := pairwise_cons.mp ha
      rw [checkNeighbours, if_neg (not_lt.mpr (hb second mem_cons_self))]
      exact ih ho

theorem checkNeighbours_sorted {ranges : List DataRange}
    (hp : ∀ range ∈ ranges, range.start ≤ range.finish)
    (ha : ranges.Pairwise fun first second => first.finish ≤ second.start) :
    checkNeighbours (ranges.mergeSort fun first second => decide (first.start ≤ second.start)) =
      .ok () := by
  rw [mergeSort_of_pairwise]
  · exact checkNeighbours_of_pairwise ha
  · apply imp_of_mem _ ha
    intro first second hl _ hb
    exact decide_eq_true ((hp first hl).trans hb)

theorem mapM_describe (hd : ∀ item ∈ placed,
      describe (rawOf item) alignment dataStart fileSize = .ok (descriptorOf dataStart item)) :
    (placed.map rawOf).mapM (describe · alignment dataStart fileSize) =
      .ok (placed.map (descriptorOf dataStart)) := by
  induction placed with
  | nil => rfl
  | cons item placed ih =>
    obtain ⟨hf, ho⟩ := forall_mem_cons.mp hd
    rw [map_cons, mapM_cons, hf, ih ho]
    rfl

theorem place_laidOut {reader : Reader} {cursor : Codec.Cursor}
    (hs : alignUp cursor.position reader.alignment = .ok dataStart)
    (hla : LaidOut reader.alignment 0 placed) (he : dataStart ≤ fileSize)
    (hi : ∀ item ∈ placed, dataStart + item.2 + item.1.data.length ≤ fileSize)
    (hw : fileSize ≤ maximum) (capacity : placed.length * 80 ≤ largestAllocation) :
    (reader.place (placed.map rawOf) fileSize).outcome cursor =
      (.ok { reader with tensors := placed.map (descriptorOf dataStart) }, cursor) := by
  have hd := mapM_describe fun item hl =>
    describe_rawOf (laidOut_mem hla hl).2.1 (laidOut_mem hla hl).1 (hi item hl) hw
  have hr : ((placed.map (descriptorOf dataStart)).filter (·.byteLen ≠ 0)).mapM dataRange =
      pure (((placed.map (descriptorOf dataStart)).filter (·.byteLen ≠ 0)).map rangeOf) := by
    apply mapM_dataRange
    intro tensor hl
    obtain ⟨item, hm, rfl⟩ := mem_map.mp (mem_filter.mp hl).1
    exact (hi item hm).trans hw
  have ha : (((placed.map (descriptorOf dataStart)).filter (·.byteLen ≠ 0)).map rangeOf).Pairwise
      fun first second => first.finish ≤ second.start := by
    rw [pairwise_map]
    apply Pairwise.filter
    rw [pairwise_map]
    apply (laidOut_pairwise hla).2.imp
    intro first second hbe
    show dataStart + first.2 + first.1.data.length ≤ dataStart + second.2
    omega
  have hp : ∀ range ∈ ((placed.map (descriptorOf dataStart)).filter (·.byteLen ≠ 0)).map rangeOf,
      range.start ≤ range.finish := by
    intro range hl
    obtain ⟨tensor, _, rfl⟩ := mem_map.mp hl
    exact Nat.le_add_right _ _
  unfold place Parser.pos
  simp only [outcome_bind, outcome_get, outcome_pure, hs, outcome_ofResult_ok]
  rw [if_neg (fun hb => absurd hb.2 (not_lt.mpr he)), withCapacity, length_map, if_pos capacity]
  simp only [outcome_bind, hd, outcome_ofResult_ok, hr, outcome_pure, checkNeighbours_sorted hp ha]

/-- The metadata that a file holds: the given one, with the alignment where the writer adds it. -/
def storedMetadata (metadata : Metadata) (alignment : Nat) : Metadata :=
  if metadata["general.alignment"]? = none ∧ alignment ≠ defaultAlignment then
    metadata.insert "general.alignment"
      (if alignment < 2 ^ 32 then .uint32 (UInt32.ofNat alignment)
        else .uint64 (UInt64.ofNat alignment))
  else
    metadata

/-- Everything that the file will hold stays within the limits and within the address space. -/
structure FitsLimits (limits : Limits) (stored : Metadata) (tensors : List TensorInput) : Prop where
  tensorCount : tensors.length ≤ limits.maxTensorCount.toNat
  capacity : tensors.length * 80 ≤ largestAllocation
  metadataCount : stored.size ≤ limits.maxMetadataEntries.toNat
  entries : ∀ entry ∈ stored.toList, EntryWithin limits entry
  descriptors : ∀ tensor ∈ tensors, TensorWithin limits tensor
  payloads : ∀ tensor ∈ tensors, tensor.data.length ≤ limits.maxAllocationBytes.toNat

variable {metadata stored : Metadata}

theorem withAlignment_eq_ok (hw : alignment ≤ maximum)
    (ha : withAlignment metadata alignment = .ok stored) :
    stored = storedMetadata metadata alignment ∧ readAlignment stored = .ok alignment := by
  unfold withAlignment at ha
  unfold storedMetadata readAlignment
  split at ha
  · next hab =>
    split at ha
    · next hd =>
      cases ha
      have had : metadata["general.alignment"]? = none ∧ alignment ≠ defaultAlignment := ⟨hab, hd⟩
      rw [if_pos had]
      refine ⟨rfl, ?_⟩
      rw [lookup_insert, if_pos rfl]
      by_cases hsm : alignment < 2 ^ 32
      · rw [if_pos hsm]
        exact congrArg _ (UInt32.toNat_ofNat_of_lt' hsm)
      · rw [if_neg hsm]
        refine congrArg _ (UInt64.toNat_ofNat_of_lt' ?_)
        show alignment < 2 ^ 64
        unfold Word.maximum at hw
        omega
    · next hs =>
      cases ha
      rw [if_neg (fun hb => hs hb.2), hab]
      exact ⟨rfl, congrArg _ (not_not.mp hs).symm⟩
  · next value hp =>
    split at ha
    · next hs =>
      cases ha
      rw [if_neg (fun hb => by rw [hp] at hb; cases hb.1), hp]
      exact ⟨rfl, congrArg _ hs⟩
    · cases ha
  · next value hp =>
    split at ha
    · next hs =>
      cases ha
      rw [if_neg (fun hb => by rw [hp] at hb; cases hb.1), hp]
      exact ⟨rfl, congrArg _ hs⟩
    · cases ha
  · cases ha

def headBytes (encoder : Encoder) (entries : List (String × MetadataValue))
    (placed : List (TensorInput × Nat)) : List UInt8 :=
  magicOf encoder.endian ++ (encoder.endian.put 4 encoder.version ++
    (countBytes encoder.endian encoder.version placed.length ++
      (countBytes encoder.endian encoder.version entries.length ++
        (entries.flatMap (entryBytes encoder.endian encoder.version) ++
          placed.flatMap (descriptorBytes encoder.endian encoder.version)))))

structure Written (writer : Writer) (stored : Metadata) (placed : List (TensorInput × Nat))
    (file : List UInt8) : Prop where
  alignment : readAlignment stored = .ok writer.options.alignment
  laidOut : LaidOut writer.options.alignment 0 placed
  named : ∀ item ∈ placed, item.1.name ≠ ""
  distinct : (placed.map (·.1.name)).Nodup
  tensorCount : Countable writer.options.version placed.length
  metadataCount : Countable writer.options.version stored.toList.length
  entries : ∀ entry ∈ stored.toList,
    EntryReads ⟨writer.options.endian, writer.options.version⟩ entry
  descriptors : ∀ item ∈ placed,
    DescriptorReads ⟨writer.options.endian, writer.options.version⟩ item
  /-- Header, padding and payloads. -/
  bytes : ∃ dataStart,
    alignUp (headBytes ⟨writer.options.endian, writer.options.version⟩ stored.toList placed).length
      writer.options.alignment = .ok dataStart ∧
    file = headBytes ⟨writer.options.endian, writer.options.version⟩ stored.toList placed ++
      (replicate (dataStart -
        (headBytes ⟨writer.options.endian, writer.options.version⟩ stored.toList placed).length) 0 ++
        payloadBytes 0 placed)
  room : file.length ≤ maximum

variable {limits : Limits} {tensors : List TensorInput} (writer : Writer)

theorem write_yields
    (hf : FitsLimits limits (storedMetadata metadata writer.options.alignment) tensors) :
    (writer.write metadata tensors).Yields (Codec.Sink.holding [])
      (fun _ after => ∃ placed, placed.map (·.1) = tensors ∧
        Written writer (storedMetadata metadata writer.options.alignment) placed after.contents)
      (fun _ _ => True) := by
  unfold Writer.write
  dsimp only
  rw [yields_bind]
  apply Yields.ofResult _ fun _ _ => trivial
  intro stored hac
  obtain ⟨rfl, ha⟩ := withAlignment_eq_ok writer.fits hac
  rw [yields_bind]
  apply Yields.ofResult _ fun _ _ => trivial
  intro offsets hld
  have hc := (concludes_layout writer.fits [] 0 tensors).of_ok hld
  have hp : (tensors.zip offsets).map (·.1) = tensors := map_fst_zip (le_of_eq hc.length.symm)
  have hpl : (tensors.zip offsets).length = tensors.length := by
    rw [← length_map (f := (·.1)), hp]
  generalize storedMetadata metadata writer.options.alignment = stored at *
  have hla := hc.laidOut
  generalize tensors.zip offsets = placed at *
  subst hp
  have hw : ∀ item ∈ placed, TensorWithin limits item.1 := fun item hl =>
    hf.descriptors item.1 (mem_map_of_mem hl)
  generalize he : (⟨writer.options.endian, writer.options.version⟩ : Encoder) = encoder
  have hv : (UInt32.ofNat writer.options.version).toNat = encoder.version := by
    have hs : writer.options.version < 2 ^ 32 := writer.version.2.trans_lt (by decide)
    rw [← he, UInt32.toNat_ofNat_of_lt' hs]
  have hma := emits_writeAll (GgufError.io 0) (magicOf encoder.endian)
  have hte : placed.length < 2 ^ 64 := by
    have hb := hf.tensorCount
    rw [length_map] at hb
    exact hb.trans_lt limits.maxTensorCount.toNat_lt
  have hme : stored.size < 2 ^ 64 := hf.metadataCount.trans_lt limits.maxMetadataEntries.toNat_lt
  rw [show writer.options.endian = encoder.endian by rw [← he]]
  apply hma.then (by decide)
  intro _ _ hr
  have hve := emits_u32 encoder (UInt32.ofNat writer.options.version)
  rw [hv] at hve
  apply hve.then hr
  intro _ _ hr
  rw [length_map]
  apply (emits_count encoder hte).then hr
  intro _ ht hr
  apply (emits_count encoder hme).then hr
  intro _ hm hr
  have hes : Emits (stored.toList.forM fun entry => encoder.entry entry.1 entry.2)
      (stored.toList.flatMap (entryBytes encoder.endian encoder.version))
      fun _ => ∀ entry ∈ stored.toList, EntryReads encoder entry :=
    emits_forM fun entry hl => emits_entry encoder (hf.entries entry hl)
  apply hes.then hr
  intro _ hen hr
  have hde : Emits (placed.forM fun item => encoder.descriptor item.1 item.2)
      (placed.flatMap (descriptorBytes encoder.endian encoder.version))
      fun _ => ∀ item ∈ placed, DescriptorReads encoder item := by
    apply emits_forM
    intro item hl
    obtain ⟨-, hex, hfi⟩ := laidOut_mem hla hl
    obtain ⟨_, _, _, _, hg, _⟩ := expectedBytes_eq_ok hex
    exact emits_descriptor encoder (hw item hl) (by omega) hg
  apply hde.then hr
  intro _ hd hr
  rw [yields_bind, yields_get]
  dsimp only [Codec.Sink.holding]
  have hh : [] ++ magicOf encoder.endian ++ encoder.endian.put 4 encoder.version ++
      countBytes encoder.endian encoder.version placed.length ++
      countBytes encoder.endian encoder.version stored.size ++
      stored.toList.flatMap (entryBytes encoder.endian encoder.version) ++
      placed.flatMap (descriptorBytes encoder.endian encoder.version) =
        headBytes encoder stored.toList placed := by
    rw [headBytes, Std.TreeMap.length_toList]
    simp only [nil_append, append_assoc]
  rw [hh] at hr ⊢
  rw [yields_bind]
  apply Yields.ofResult _ fun _ _ => trivial
  intro dataStart hst
  apply (emits_extendWithZeros _).then hr
  intro _ _ hr
  apply (emits_payloads dataStart 0 placed _ hr).mono _ (fun _ _ => id)
  rintro _ _ ⟨⟨rfl, hlm⟩, -⟩
  subst he
  refine ⟨placed, rfl, ?_⟩
  exact {
    alignment := ha
    laidOut := hla
    named item hl := hc.named item.1 (mem_map_of_mem hl)
    distinct := by
      have hn := hc.distinct nodup_nil
      rwa [nil_append, map_map] at hn
    tensorCount := ht
    metadataCount := by
      rw [Std.TreeMap.length_toList]
      exact hm
    entries := hen
    descriptors := hd
    bytes := ⟨dataStart, hst, by simp only [Codec.Sink.holding, append_assoc]⟩
    room := hlm }

def readerOf (stored : Metadata) (limits : Limits) (file : List UInt8)
    (tensors : List TensorDescriptor) : Reader where
  contents := file
  endian := writer.options.endian
  version := writer.options.version
  alignment := writer.options.alignment
  metadata := withEntries ∅ stored.toList
  tensors := tensors
  limits := limits

theorem reads_endianOf (endian : Endian) :
    Reads (Effect.ofResult (endianOf (magicOf endian)) : ParseM Endian) [] endian := by
  cases endian with
  | little => exact reads_pure _
  | big => exact reads_pure _

theorem readAlignment_withEntries (stored : Metadata) :
    readAlignment (withEntries ∅ stored.toList) = readAlignment stored := by
  unfold readAlignment
  rw [lookup_withEntries_toList]

theorem nodup_keys_toList (stored : Metadata) : (stored.toList.map (·.1)).Nodup := by
  rw [Std.TreeMap.map_fst_toList_eq_keys]
  exact Std.TreeMap.nodup_keys

variable {writer : Writer} {file : List UInt8}

/-- The header, the metadata and the descriptors of a written file are read back, which leaves the
tensors to be placed. -/
theorem Written.outcome_parse (hw : Written writer stored placed file)
    (hf : FitsLimits limits stored (placed.map (·.1))) {head : List UInt8}
    (hh : headBytes ⟨writer.options.endian, writer.options.version⟩ stored.toList placed = head)
    (contents rest : List UInt8) (fileSize : Nat) :
    (parse limits.maxMetadataDepth.toNat limits contents fileSize).outcome
        ⟨head ++ rest, 0⟩ =
      ((readerOf writer stored limits contents []).place (placed.map rawOf) fileSize).outcome
        ⟨rest, head.length⟩ := by
  subst hh
  have hwo : writer.options.version < 2 ^ 32 := writer.version.2.trans_lt (by decide)
  have hv : (UInt32.ofNat writer.options.version).toNat = writer.options.version :=
    UInt32.toNat_ofNat_of_lt' hwo
  have hve := reads_u32 ⟨writer.options.endian, 0, limits⟩
    (UInt32.ofNat writer.options.version)
  rw [hv] at hve
  generalize hp :
    (⟨writer.options.endian, writer.options.version, limits⟩ : Parser) = parser
  have he : parser.endian = writer.options.endian := by rw [← hp]
  have hr : parser.version = writer.options.version := by rw [← hp]
  have hl : parser.limits = limits := by rw [← hp]
  have hs : parser.For ⟨writer.options.endian, writer.options.version⟩ :=
    ⟨he, hr⟩
  have ht := reads_count parser (hr ▸ hw.tensorCount)
  have hm := reads_count parser (hr ▸ hw.metadataCount)
  rw [he, hr] at ht hm
  have hen := reads_entries _ hs (le_of_eq (by rw [hl])) hw.entries
    (fun entry hli => hl ▸ hf.entries entry hli) (fun _ _ => Std.TreeMap.contains_emptyc)
    (nodup_keys_toList stored)
  have hd : Reads (parser.rawTensors placed.length []) _ _ :=
    reads_rawTensors _ hs hw.descriptors
      (fun item hli => hl ▸ hf.descriptors item.1 (mem_map_of_mem hli))
      hw.named hw.distinct
  have ha : Reads
      (Effect.ofResult (readAlignment (withEntries ∅ stored.toList)) : ParseM Nat) []
      writer.options.alignment := by
    rw [readAlignment_withEntries, hw.alignment]
    exact reads_pure _
  have hte := hf.tensorCount
  rw [length_map] at hte
  have capacity := hf.capacity
  rw [length_map] at capacity
  have hme := hf.metadataCount
  rw [← Std.TreeMap.length_toList] at hme
  have hpr := writer.alignment
  have hpo := isPowerOfTwo_pos hpr
  have hma : Reads (Parser.exact 4) (magicOf writer.options.endian)
      (magicOf writer.options.endian) :=
    reads_readExact _ (by cases writer.options.endian <;> rfl)
  unfold parse
  simp only [headBytes, append_assoc]
  rw [hma.outcome_bind, (reads_endianOf _).outcome_skip, hve.outcome_bind, hv,
    if_neg (not_not.mpr writer.version), hp, ht.outcome_bind,
    (reads_checkLimit hte).outcome_skip, hm.outcome_bind,
    (reads_checkLimit hme).outcome_skip, hen.outcome_bind, ha.outcome_skip,
    if_neg (by simp [hpr, hpo.ne']), (reads_withCapacity (by omega)).outcome_skip, hd.outcome_bind]
  simp only [length_append, zero_add, add_assoc]
  rfl

theorem readRaw_of_slice {reader : Reader} {tensor : TensorDescriptor} {before data after : List UInt8}
    (hc : reader.contents = before ++ (data ++ after)) (ho : tensor.dataOffset = before.length)
    (hl : tensor.byteLen = data.length)
    (hw : data.length ≤ reader.limits.maxAllocationBytes.toNat) :
    reader.readRaw tensor = .ok data := by
  unfold readRaw checkLimit readAt
  rw [hl, ho, hc, if_neg (not_lt.mpr hw), if_pos (by
    left
    simp only [length_append]
    omega), drop_left, take_left]
  rfl

theorem Written.withLimits (hw : Written writer stored placed file)
    (hfi : FitsLimits limits stored (placed.map (·.1))) :
    ∃ dataStart, withLimits file limits =
        .ok (readerOf writer stored limits file (placed.map (descriptorOf dataStart))) ∧
      ∀ item ∈ placed, (readerOf writer stored limits file (placed.map (descriptorOf dataStart))).readRaw
        (descriptorOf dataStart item) = .ok item.1.data := by
  obtain ⟨dataStart, hs, hf⟩ := hw.bytes
  have hp := hw.outcome_parse hfi rfl file
  have hr := hw.room
  have capacity := hfi.capacity
  rw [length_map] at capacity
  generalize headBytes ⟨writer.options.endian, writer.options.version⟩ stored.toList placed = head
    at hs hf hp
  have ha := ((concludes_alignUp writer.fits).of_ok hs).above
  have hfo : ∀ item ∈ placed, ∃ before after, file = before ++ (item.1.data ++ after) ∧
      before.length = dataStart + item.2 := by
    intro item hl
    obtain ⟨before, after, hpa, hpl⟩ := payload_found hw.laidOut hl
    refine ⟨head ++ (replicate (dataStart - head.length) 0 ++ before), after, ?_, ?_⟩
    · rw [hf, hpa]
      simp only [append_assoc]
    · simp only [length_append, length_replicate]
      omega
  have hi : ∀ item ∈ placed, dataStart + item.2 + item.1.data.length ≤ file.length := by
    intro item hl
    obtain ⟨before, after, hf, hle⟩ := hfo item hl
    rw [hf]
    simp only [length_append]
    omega
  have he : dataStart ≤ file.length := by
    rw [hf]
    simp only [length_append, length_replicate]
    omega
  refine ⟨dataStart, ?_, ?_⟩
  · unfold Reader.withLimits Reader.run
    have hsa := hp (replicate (dataStart - head.length) 0 ++ payloadBytes 0 placed) file.length
    rw [← hf] at hsa
    rw [hsa, place_laidOut hs hw.laidOut he hi hr capacity]
    rfl
  · intro item hl
    obtain ⟨before, after, hf, hle⟩ := hfo item hl
    exact readRaw_of_slice hf hle.symm rfl (hfi.payloads _ (mem_map_of_mem hl))

theorem Writer.new_eq_ok {options : WriterOptions} {hf : options.alignment ≤ maximum}
    (hc : Writer.new options hf = .ok writer) : writer.options = options := by
  unfold Writer.new at hc
  split at hc
  · cases hc
  split at hc
  · cases hc
  · cases hc
    rfl

theorem Writer.written_eq_ok (ha : writer.written metadata tensors = .ok file) :
    ((writer.write metadata tensors).outcome (Codec.Sink.holding [])).1 = .ok () ∧
      ((writer.write metadata tensors).outcome (Codec.Sink.holding [])).2.contents = file := by
  unfold Writer.written at ha
  split at ha
  · next run =>
    cases ha
    rw [Codec.Sink.holding, length_nil, run]
    exact ⟨rfl, rfl⟩
  · cases ha

/-- What the writer has written, the reader reads back. -/
theorem write_read_round_trip {options : WriterOptions} {fits : options.alignment ≤ maximum}
    {writer : Writer} (created : Writer.new options fits = .ok writer) {metadata : Metadata}
    {tensors : List TensorInput} {file : List UInt8}
    (accepted : writer.written metadata tensors = .ok file) {limits : Limits}
    (within : FitsLimits limits (storedMetadata metadata options.alignment) tensors) :
    ∃ reader, withLimits file limits = .ok reader ∧
      reader.version = options.version ∧ reader.endian = options.endian ∧
      reader.alignment = options.alignment ∧
      (∀ key : String, reader.metadata[key]? = (storedMetadata metadata options.alignment)[key]?) ∧
      Forall₂ (fun descriptor tensor =>
        descriptor.name = tensor.name ∧ descriptor.dimensions = tensor.dimensions ∧
          descriptor.ggmlType = tensor.ggmlType ∧ reader.readRaw descriptor = .ok tensor.data)
        reader.tensors tensors := by
  obtain rfl := Writer.new_eq_ok created
  obtain ⟨hf, hc⟩ := Writer.written_eq_ok accepted
  obtain ⟨placed, rfl, hw⟩ := (write_yields writer within).of_ok hf
  rw [hc] at hw
  obtain ⟨dataStart, hr, raw⟩ := hw.withLimits within
  refine ⟨_, hr, rfl, rfl, rfl, lookup_withEntries_toList _, ?_⟩
  show Forall₂ _ (placed.map (descriptorOf dataStart)) (placed.map (·.1))
  rw [forall₂_map_left_iff, forall₂_map_right_iff, forall₂_same]
  exact fun item hl => ⟨rfl, rfl, rfl, raw item hl⟩

def smallWriter : Writer := ⟨⟨3, .little, 1⟩, by decide, by decide, by decide⟩
def smallMetadata : Metadata := (∅ : Metadata).insert "n" (.array (.array [.uint8 [7]]))
def smallTensors : List TensorInput := [⟨"w", [1], .f32, [1, 2, 3, 4], by decide⟩]
def smallFile : List UInt8 := (smallWriter.written smallMetadata smallTensors).toOption.getD []

theorem toList_storedMetadata_small : (storedMetadata smallMetadata 1).toList =
    [("general.alignment", .uint32 1), ("n", .array (.array [.uint8 [7]]))] := rfl

theorem fitsLimits_small : FitsLimits .default (storedMetadata smallMetadata 1) smallTensors where
  tensorCount := by decide
  capacity := by decide
  metadataCount := by decide +kernel
  entries := by
    rw [toList_storedMetadata_small]
    simp only [forall_mem_cons, not_mem_nil, false_imp_iff, implies_true, EntryWithin,
      MetadataValue.Within, MetadataArray.Within, MetadataArray.AllWithin, TextWithin]
    decide +kernel
  descriptors := by
    simp only [smallTensors, forall_mem_cons, not_mem_nil, false_imp_iff, implies_true,
      TensorWithin, TextWithin]
    decide +kernel
  payloads := by decide +kernel

theorem write_read_small : smallWriter.written smallMetadata smallTensors = .ok smallFile ∧
    ∃ reader, withLimits smallFile .default = .ok reader ∧
      reader.version = 3 ∧ reader.endian = .little ∧ reader.alignment = 1 ∧
      (∀ key : String, reader.metadata[key]? = (storedMetadata smallMetadata 1)[key]?) ∧
      Forall₂ (fun descriptor tensor =>
        descriptor.name = tensor.name ∧ descriptor.dimensions = tensor.dimensions ∧
          descriptor.ggmlType = tensor.ggmlType ∧ reader.readRaw descriptor = .ok tensor.data)
        reader.tensors smallTensors := by
  have ha : smallWriter.written smallMetadata smallTensors = .ok smallFile := by decide +kernel
  have hc : Writer.new ⟨3, .little, 1⟩ (by decide) = .ok smallWriter := rfl
  exact ⟨ha, write_read_round_trip hc ha fitsLimits_small⟩

end Eredu.Gguf
