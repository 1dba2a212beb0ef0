import Eredu.Foundation.MapTotal
import Eredu.Gguf.Reader

/-!
# What the reader accepts

Every file that the reader accepts is well formed: its tensors have distinct
names, lie aligned and apart within the file and have the length their shape asks
for, and nothing in it exceeds the limits. The parser stops with an error on every
other file, within as many stack frames as the depth limit allows, unless the limits
admit counts that no allocation can hold or a nesting that 32 bits cannot count.
-/

namespace Eredu.Gguf

open Effect List Gguf.Parser Reader Word Nat Codec

def MetadataArray.itemSize : MetadataArray → Nat
  | .uint8 _ | .int8 _ | .bool _ => 1
  | .uint16 _ | .int16 _ => 2
  | .uint32 _ | .int32 _ | .float32 _ => 4
  | .uint64 _ | .int64 _ | .float64 _ => 8
  | .string _ => 24
  | .array _ => 32

mutual

def MetadataArray.Within (limits : Limits) (depth : Nat) (whole : MetadataArray) : Prop :=
  depth ≤ limits.maxMetadataDepth.toNat ∧
    (whole.len ≤ limits.maxArrayElements.toNat ∧ whole.len * whole.itemSize ≤ largestAllocation) ∧
    match whole with
    | .string values => ∀ text ∈ values, TextWithin limits text
    | .array values => MetadataArray.AllWithin limits (depth + 1) values
    | _ => True

def MetadataArray.AllWithin (limits : Limits) (depth : Nat) : List MetadataArray → Prop
  | [] => True
  | first :: rest => first.Within limits depth ∧ MetadataArray.AllWithin limits depth rest

end

variable {depth : Nat} {limits : Limits}

theorem MetadataArray.allWithin_iff {values : List MetadataArray} :
    AllWithin limits depth values ↔ ∀ value ∈ values, value.Within limits depth := by
  induction values with
  | nil => simp [AllWithin]
  | cons first rest ih => rw [AllWithin, forall_mem_cons, ih]

def MetadataArray.flat : MetadataArray → Bool
  | .string _ => false
  | .array _ => false
  | _ => true

theorem MetadataArray.within_of_flat {whole : MetadataArray} (hp : whole.flat)
    (hs : depth ≤ limits.maxMetadataDepth.toNat) (short : whole.len ≤ limits.maxArrayElements.toNat ∧
      whole.len * whole.itemSize ≤ largestAllocation) : whole.Within limits depth := by
  cases whole <;> first | exact ⟨hs, short, trivial⟩ | cases hp

variable (limits : Limits)

def MetadataValue.Within : MetadataValue → Prop
  | .string text => TextWithin limits text
  | .array whole => whole.Within limits 1
  | _ => True

def EntriesWithin (metadata : Metadata) : Prop :=
  ∀ key value, metadata[key]? = some value →
    TextWithin limits key ∧ (asBytes key).length ≤ longestKey ∧ isAscii key ∧ value.Within limits

def cursorIn (contents : List UInt8) (cursor : Codec.Cursor) : Prop :=
  cursor.position ≤ contents.length ∧ cursor.rest = contents.drop cursor.position

/-- Limits under which every count that passes has an allocation, and a file that has no room for
more nested arrays than 32 bits count: each of them takes eight bytes at least. -/
structure Bounded (limits : Limits) (contents : List UInt8) : Prop where
  strings : limits.maxStringBytes.toNat ≤ largestAllocation
  arrays : limits.maxArrayElements.toNat * 32 ≤ largestAllocation
  tensors : limits.maxTensorCount.toNat * 80 ≤ largestAllocation
  depth : limits.maxMetadataDepth.toNat < maximumDepth ∨ contents.length < 8 * maximumDepth

/-- The ways the parser stops. -/
def Orderly (limits : Limits) (contents : List UInt8) : Fault GgufError → Prop
  | .panic message => message ≠ "stack overflow" ∧ ¬ Bounded limits contents
  | .error _ => True

/-- From a position in the file on, a parser stays in the file, returns what is good and gets to
another position, or stops in an orderly way. -/
def Parses {α : Type} (limits : Limits) (contents : List UInt8) (start next : Nat) (m : ParseM α)
    (good : α → Prop) : Prop :=
  ∀ cursor, cursorIn contents cursor → start ≤ cursor.position →
    m.Yields cursor (fun value after => good value ∧ cursorIn contents after ∧ next ≤ after.position)
      (fun fault _ => Orderly limits contents fault)

variable {contents : List UInt8} {cursor : Codec.Cursor} {limits : Limits}

section Rules

variable {α β : Type} {start next last : Nat} {m : ParseM α} {good : α → Prop}

theorem parses_pure {value : α} (holds : good value) :
    Parses limits contents start start (pure value) good :=
  fun _ within reached => ⟨holds, within, reached⟩

theorem parses_fail {cause : GgufError} : Parses limits contents start next (fail cause) good :=
  fun _ _ _ => trivial

theorem Parses.bind {rest : α → ParseM β} {goal : β → Prop}
    (first : Parses limits contents start next m good)
    (continued : ∀ value, good value → Parses limits contents next last (rest value) goal) :
    Parses limits contents start last (m >>= rest) goal := by
  intro cursor within reached
  rw [yields_bind]
  exact (first cursor within reached).mono
    (fun value after ⟨holds, inside, passed⟩ => continued value holds after inside passed)
    (fun _ _ => id)

theorem Parses.then {rest : α → ParseM β} {returned : β → Codec.Cursor → Prop}
    (first : Parses limits contents 0 0 m good) (within : cursorIn contents cursor)
    (continued : ∀ value after, good value → cursorIn contents after →
      (rest value).Yields after returned fun fault _ => Orderly limits contents fault) :
    (m >>= rest).Yields cursor returned fun fault _ => Orderly limits contents fault := by
  rw [yields_bind]
  exact (first cursor within (zero_le _)).mono
    (fun value after ⟨holds, inside, _⟩ => continued value after holds inside) (fun _ _ => id)

theorem Parses.mono {weaker : α → Prop} (parses : Parses limits contents start next m good)
    (implied : ∀ value, good value → weaker value) (before : last ≤ next) :
    Parses limits contents start last m weaker :=
  fun cursor within reached => (parses cursor within reached).mono
    (fun value _ ⟨holds, inside, passed⟩ => ⟨implied value holds, inside, before.trans passed⟩)
    (fun _ _ => id)

theorem Parses.map {f : α → β} {goal : β → Prop} (parses : Parses limits contents start next m good)
    (implied : ∀ value, good value → goal (f value)) :
    Parses limits contents start next (f <$> m) goal :=
  parses.bind fun value holds => parses_pure (implied value holds)

theorem Parses.times (parses : Parses limits contents start start m good) (count : Nat) :
    Parses limits contents start start (times m count)
      fun values => values.length = count ∧ ∀ value ∈ values, good value := by
  intro cursor within reached
  have each : ∀ after, cursorIn contents after ∧ start ≤ after.position → m.Yields after
      (fun value last => good value ∧ cursorIn contents last ∧ start ≤ last.position)
      (fun fault _ => Orderly limits contents fault) :=
    fun after ⟨inside, passed⟩ => parses after inside passed
  exact yields_times each count ⟨within, reached⟩

theorem parses_ofResult {result : Except GgufError α} (concludes : Concludes result good fun _ => True) :
    Parses limits contents start start (ofResult result) good :=
  fun _ within reached =>
    yields_of_concludes concludes (fun _ holds => ⟨holds, within, reached⟩) fun _ _ => trivial

end Rules

theorem concludes_checkLimit {resource : String} {actual limit : Nat} :
    Concludes (checkLimit resource actual limit) (fun _ => actual ≤ limit) fun _ => True := by
  unfold checkLimit
  split
  · trivial
  · next within => exact not_lt.mp within

section Values

variable (parser : Parser) {start : Nat}

theorem parses_exact (size : Nat) : Parses limits contents start (start + size) (exact size)
    fun bytes => bytes.length = size := by
  intro cursor ⟨inside, unread⟩ reached
  unfold exact readExact
  rw [yields_bind, yields_get]
  split
  · next enough =>
    rw [unread, length_drop] at enough
    refine ⟨?_, ⟨?_, ?_⟩, Nat.add_le_add_right reached size⟩
    · show (cursor.rest.take size).length = size
      rw [unread, length_take, length_drop]
      omega
    · show cursor.position + size ≤ contents.length
      omega
    · show cursor.rest.drop size = contents.drop (cursor.position + size)
      rw [unread, drop_drop]
  · trivial

theorem parses_word (width : Nat) :
    Parses limits contents start (start + width) (parser.word width) fun _ => True :=
  (parses_exact width).bind fun _ _ => parses_pure trivial

abbrev Parser.Accepts {α : Type} (parser : Parser) (contents : List UInt8) (start : Nat)
    (m : ParseM α) (good : α → Prop) : Prop := Parses parser.limits contents start start m good

theorem parses_u8 : parser.Accepts contents start u8 fun _ => True :=
  ((parses_exact 1).bind fun _ _ => parses_pure trivial).mono (fun _ => id) (Nat.le_add_right _ _)

theorem parses_u16 : parser.Accepts contents start parser.u16 fun _ => True :=
  ((parses_word parser 2).map fun _ _ => trivial).mono (fun _ => id) (Nat.le_add_right _ _)

theorem u32_advances :
    Parses parser.limits contents start (start + 4) parser.u32 fun _ => True :=
  (parses_word parser 4).map fun _ _ => trivial

theorem parses_u32 : parser.Accepts contents start parser.u32 fun _ => True :=
  (u32_advances parser).mono (fun _ => id) (Nat.le_add_right _ _)

theorem parses_u64 : parser.Accepts contents start parser.u64 fun _ => True :=
  ((parses_word parser 8).map fun _ _ => trivial).mono (fun _ => id) (Nat.le_add_right _ _)

theorem count_advances :
    Parses parser.limits contents start (start + 4) parser.count fun value => value ≤ maximum := by
  unfold Parser.count
  split
  · exact (u32_advances parser).map fun value _ => value.toNat_lt.le.trans (by decide)
  · have advances : Parses parser.limits contents start (start + 8) parser.u64 fun _ => True :=
      (parses_word parser 8).map fun _ _ => trivial
    have word : Parses parser.limits contents start (start + 8) (UInt64.toNat <$> parser.u64)
        fun value => value ≤ maximum := advances.map fun value _ => le_sub_one_of_lt value.toNat_lt
    exact word.mono (fun _ => id) (by omega)

theorem parses_count : parser.Accepts contents start parser.count fun value => value ≤ maximum :=
  (count_advances parser).mono (fun _ => id) (Nat.le_add_right _ _)

/-- A capacity that overflows exceeds what the limits are bounded by. -/
theorem withCapacity_yields {size count limit : Nat} (within : count ≤ limit)
    (bounded : Bounded limits contents → limit * size ≤ largestAllocation) :
    (withCapacity size count : ParseM Unit).Yields cursor
      (fun _ after => count * size ≤ largestAllocation ∧ after = cursor)
      (fun fault _ => Orderly limits contents fault) := by
  unfold withCapacity
  split
  · next fits => exact ⟨fits, rfl⟩
  · next overflows =>
    refine ⟨by decide, fun holds => overflows ?_⟩
    exact (Nat.mul_le_mul_right size within).trans (bounded holds)

theorem parses_withCapacity {size count limit : Nat} (within : count ≤ limit)
    (bounded : Bounded limits contents → limit * size ≤ largestAllocation) :
    Parses limits contents start start (withCapacity size count)
      fun _ => count * size ≤ largestAllocation := by
  intro cursor inside reached
  apply (withCapacity_yields within bounded).mono _ fun _ _ => id
  rintro _ _ ⟨fits, rfl⟩
  exact ⟨fits, inside, reached⟩

theorem parses_string : parser.Accepts contents start parser.string (TextWithin parser.limits) := by
  apply (parses_count parser).bind
  intro length _
  apply (parses_ofResult concludes_checkLimit).bind
  intro _ within
  apply (parses_withCapacity within fun bounded => by
    rw [Nat.mul_one]
    exact bounded.strings).bind
  intro _ fits
  apply ((parses_exact length).mono (fun _ => id) (Nat.le_add_right _ _)).bind
  intro bytes sized
  split
  · next text decoded =>
    apply parses_pure
    unfold TextWithin asBytes
    rw [String.toList_ofList, Utf8.encode_of_decode decoded, sized]
    exact ⟨within, by rwa [Nat.mul_one] at fits⟩
  · exact parses_fail

theorem parses_bool : parser.Accepts contents start Parser.bool fun _ => True := by
  apply (parses_u8 parser).bind
  intro byte _
  split
  · exact parses_pure trivial
  · exact parses_pure trivial
  · exact parses_fail

theorem parses_vals {α : Type} {item : ParseM α} {good : α → Prop} {make : List α → MetadataArray}
    {size length : Nat} (small : size ≤ 32) (short : length ≤ parser.limits.maxArrayElements.toNat)
    (parses : parser.Accepts contents start item good)
    (within : ∀ values, values.length = length → length * size ≤ largestAllocation →
      (∀ value ∈ values, good value) → (make values).Within parser.limits depth) :
    parser.Accepts contents start (vals size make item length)
      fun whole => whole.Within parser.limits depth := by
  apply (parses_withCapacity short fun bounded =>
    (Nat.mul_le_mul_left _ small).trans bounded.arrays).bind
  intro _ fits
  exact (parses.times length).map fun values ⟨counted, each⟩ =>
    within values counted fits each

/-- Nested arrays stand eight bytes behind each other. -/
theorem parses_array (frames depth : Nat) (counted : depth < maximumDepth)
    (enough : parser.limits.maxMetadataDepth.toNat < depth + 1 + frames) :
    parser.Accepts contents (8 * depth) (parser.array frames (depth + 1))
      fun whole => whole.Within parser.limits (depth + 1) := by
  induction frames generalizing depth with
  | zero =>
    unfold array
    rw [if_pos (by omega)]
    exact parses_fail
  | succ frames ih =>
    unfold array
    split
    · exact parses_fail
    rename_i allowed
    have shallow : depth + 1 ≤ parser.limits.maxMetadataDepth.toNat := not_lt.mp allowed
    apply Parses.mono _ (fun _ => id) (show 8 * depth ≤ 8 * (depth + 1) by omega)
    apply (u32_advances parser).bind
    intro type _
    apply (count_advances parser).bind
    intro length _
    rw [add_assoc (8 * depth), ← Nat.mul_succ 8 depth]
    apply (parses_ofResult concludes_checkLimit).bind
    intro _ short
    have deeper : parser.Accepts contents (8 * (depth + 1)) (do
        let deeper ← addUnchecked maximumDepth (depth + 1) 1
        parser.array frames deeper) fun whole => whole.Within parser.limits (depth + 1 + 1) := by
      unfold addUnchecked
      split
      · next room => exact ih (depth + 1) room (by omega)
      · next full =>
        intro cursor inside reached
        refine ⟨by decide, fun bounded => ?_⟩
        have past := inside.1
        have none := bounded.depth
        omega
    have flat : ∀ {α : Type} {item : ParseM α} (size : Nat) (make : List α → MetadataArray),
        size ≤ 32 → parser.Accepts contents (8 * (depth + 1)) item (fun _ => True) →
        (∀ values, (make values).len = values.length ∧ (make values).itemSize = size ∧
          (make values).flat) →
        parser.Accepts contents (8 * (depth + 1)) (vals size make item length)
          fun whole => whole.Within parser.limits (depth + 1) := by
      intro α item size make small parses plain
      apply parses_vals parser small short parses
      intro values same fits _
      obtain ⟨counts, sized, flat⟩ := plain values
      exact MetadataArray.within_of_flat flat shallow (by rw [sized, counts, same]; exact ⟨short, fits⟩)
    unfold arrayItems
    split
    · exact flat 1 .uint8 (by decide) (parses_u8 parser) fun _ => ⟨rfl, rfl, rfl⟩
    · exact flat 1 .int8 (by decide) ((parses_u8 parser).map fun _ _ => trivial)
        fun _ => ⟨rfl, rfl, rfl⟩
    · exact flat 2 .uint16 (by decide) (parses_u16 parser) fun _ => ⟨rfl, rfl, rfl⟩
    · exact flat 2 .int16 (by decide) ((parses_u16 parser).map fun _ _ => trivial)
        fun _ => ⟨rfl, rfl, rfl⟩
    · exact flat 4 .uint32 (by decide) (parses_u32 parser) fun _ => ⟨rfl, rfl, rfl⟩
    · exact flat 4 .int32 (by decide) ((parses_u32 parser).map fun _ _ => trivial)
        fun _ => ⟨rfl, rfl, rfl⟩
    · exact flat 4 .float32 (by decide) (parses_u32 parser) fun _ => ⟨rfl, rfl, rfl⟩
    · exact flat 1 .bool (by decide) (parses_bool parser) fun _ => ⟨rfl, rfl, rfl⟩
    · apply parses_vals parser (by decide) short (parses_string parser)
      rintro values rfl fits texts
      exact ⟨shallow, ⟨short, fits⟩, texts⟩
    · apply parses_vals parser (by decide) short deeper
      rintro values rfl fits nested
      exact ⟨shallow, ⟨short, fits⟩, MetadataArray.allWithin_iff.mpr nested⟩
    · exact flat 8 .uint64 (by decide) (parses_u64 parser) fun _ => ⟨rfl, rfl, rfl⟩
    · exact flat 8 .int64 (by decide) ((parses_u64 parser).map fun _ _ => trivial)
        fun _ => ⟨rfl, rfl, rfl⟩
    · exact flat 8 .float64 (by decide) (parses_u64 parser) fun _ => ⟨rfl, rfl, rfl⟩
    · exact parses_fail

theorem parses_value (frames type : Nat) (enough : parser.limits.maxMetadataDepth.toNat ≤ frames) :
    parser.Accepts contents 0 (parser.value frames type 0) (MetadataValue.Within parser.limits) := by
  unfold value
  split
  iterate 2 · exact (parses_u8 parser).map fun _ _ => trivial
  iterate 2 · exact (parses_u16 parser).map fun _ _ => trivial
  iterate 3 · exact (parses_u32 parser).map fun _ _ => trivial
  · exact (parses_bool parser).map fun _ _ => trivial
  · exact (parses_string parser).map fun _ => id
  · rw [addUnchecked, if_pos (by decide), pure_bind]
    exact (parses_array parser frames 0 (by decide) (by omega)).map fun _ => id
  iterate 3 · exact (parses_u64 parser).map fun _ _ => trivial
  · exact parses_fail

theorem parses_entry (frames : Nat) {metadata : Metadata}
    (enough : parser.limits.maxMetadataDepth.toNat ≤ frames)
    (before : EntriesWithin parser.limits metadata) :
    parser.Accepts contents 0 (parser.entry frames metadata) fun after =>
      after.size = metadata.size + 1 ∧ EntriesWithin parser.limits after := by
  apply (parses_string parser).bind
  intro key text
  split
  · exact parses_fail
  rename_i plain
  apply (parses_u32 parser).bind
  intro type _
  apply (parses_value parser frames type.toNat enough).bind
  intro value within
  split
  · exact parses_fail
  rename_i absent
  apply parses_pure
  constructor
  · rw [Std.TreeMap.size_insert, if_neg (by simpa using absent)]
  · intro other found lookup
    rw [lookup_insert] at lookup
    split at lookup
    · next same =>
      cases lookup
      rw [same]
      obtain ⟨short, ascii⟩ := not_or.mp plain
      exact ⟨text, not_lt.mp short, by simpa using ascii, within⟩
    · exact before other found lookup

theorem parses_entries (frames remaining : Nat) {metadata : Metadata}
    (enough : parser.limits.maxMetadataDepth.toNat ≤ frames)
    (before : EntriesWithin parser.limits metadata) :
    parser.Accepts contents 0 (parser.entries frames remaining metadata)
      fun after => after.size = metadata.size + remaining ∧ EntriesWithin parser.limits after := by
  induction remaining generalizing metadata with
  | zero => exact parses_pure ⟨rfl, before⟩
  | succ remaining ih =>
    apply (parses_entry parser frames enough before).bind
    rintro next ⟨size, within⟩
    apply (ih within).mono _ le_rfl
    rintro last ⟨total, all⟩
    exact ⟨by omega, all⟩

/-- What the first loop over the descriptors has checked. -/
structure RawWithin (limits : Limits) (raw : RawTensor) : Prop where
  named : raw.name ≠ ""
  text : TextWithin limits raw.name
  rank : raw.dimensions.length ≤ limits.maxRank.toNat
  words : ∀ dimension ∈ raw.dimensions, dimension ≤ maximum

theorem parses_rawTensor (seen : List RawTensor) :
    parser.Accepts contents 0 (parser.rawTensor seen) fun raw =>
      RawWithin parser.limits raw ∧ ∀ other ∈ seen, other.name ≠ raw.name := by
  apply (parses_string parser).bind
  intro name text
  split
  · exact parses_fail
  rename_i named
  split
  · exact parses_fail
  rename_i fresh
  apply (parses_u32 parser).bind
  intro rank _
  split
  · exact parses_fail
  rename_i ranked
  apply ((parses_count parser).times rank.toNat).bind
  rintro dimensions ⟨counted, words⟩
  apply (parses_u32 parser).bind
  intro type _
  apply (parses_u64 parser).bind
  intro offset _
  apply parses_pure
  refine ⟨⟨by simpa using named, text, ?_, words⟩, fun other listed same => fresh ?_⟩
  · rw [counted]
    exact UInt32.le_iff_toNat_le.mp (UInt32.not_lt.mp ranked)
  · rw [any_eq_true]
    exact ⟨other, listed, beq_iff_eq.mpr same⟩

theorem parses_rawTensors (remaining : Nat) {seen : List RawTensor}
    (within : ∀ raw ∈ seen, RawWithin parser.limits raw) (distinct : (seen.map (·.name)).Nodup) :
    parser.Accepts contents 0 (parser.rawTensors remaining seen) fun all =>
      all.length = seen.length + remaining ∧ (∀ raw ∈ all, RawWithin parser.limits raw) ∧
        (all.map (·.name)).Nodup := by
  induction remaining generalizing seen with
  | zero => exact parses_pure ⟨rfl, within, distinct⟩
  | succ remaining ih =>
    apply (parses_rawTensor parser seen).bind
    rintro raw ⟨checked, fresh⟩
    have names : ((seen ++ [raw]).map (·.name)).Nodup := by
      rw [map_append, map_singleton]
      refine nodup_append.mpr ⟨distinct, nodup_singleton _, ?_⟩
      intro name old other new
      obtain ⟨tensor, listed, rfl⟩ := mem_map.mp old
      rw [mem_singleton.mp new]
      exact fresh tensor listed
    have each := forall_mem_append.mpr ⟨within, forall_mem_singleton.mpr checked⟩
    apply (ih each names).mono _ le_rfl
    rintro last ⟨counted, others⟩
    rw [length_append, length_singleton] at counted
    exact ⟨by omega, others⟩

end Values

variable (tensor : TensorDescriptor)

/-- The length of a tensor is what its shape asks for. -/
structure Shaped : Prop where
  product : tensor.dimensions.prod ≤ maximum
  length : ∃ block bytes, tensor.ggmlType.blockAndBytes = .ok (block, bytes) ∧
    tensor.byteLen = tensor.dimensions.prod / block * bytes ∧
    (tensor.dimensions.prod ≠ 0 → block ∣ tensor.dimensions.headD 1 ∧ block ∣ tensor.dimensions.prod)

/-- A tensor lies aligned within the file. -/
structure Placed (alignment dataStart fileSize : Nat) (tensor : TensorDescriptor) : Prop where
  start : tensor.dataOffset = dataStart + tensor.relativeOffset
  aligned : alignment ∣ tensor.relativeOffset
  word : tensor.dataOffset + tensor.byteLen ≤ maximum
  inside : tensor.dataOffset + tensor.byteLen ≤ fileSize

theorem concludes_describe (raw : RawTensor) (alignment dataStart fileSize : Nat) :
    Concludes (describe raw alignment dataStart fileSize)
      (fun tensor => (tensor.name = raw.name ∧ tensor.dimensions = raw.dimensions) ∧
        Shaped tensor ∧ Placed alignment dataStart fileSize tensor) fun _ => True := by
  unfold describe
  split
  · trivial
  rename_i ha
  apply (concludes_product _ _).bind
  rintro elements ⟨rfl, hs⟩
  apply (concludes_blockAndBytes _).bind
  rintro ⟨block, bytes⟩ hg
  dsimp only
  split
  · trivial
  rename_i hd
  apply (concludes_orOverflow fun length hf => checkedMul_eq_some.mp hf).bind
  rintro length ⟨rfl, -⟩
  apply (concludes_orOverflow fun offset hf => checkedAdd_eq_some.mp hf).bind
  rintro offset ⟨rfl, -⟩
  apply (concludes_orOverflow fun last hf => checkedAdd_eq_some.mp hf).bind
  rintro last ⟨rfl, hf⟩
  split
  · trivial
  rename_i hi
  refine ⟨⟨rfl, rfl⟩, ⟨hs, block, bytes, hg, rfl, fun hn => ?_⟩,
    ⟨rfl, dvd_of_mod_eq_zero (not_not.mp ha), hf, not_lt.mp hi⟩⟩
  have hb := not_or.mp (not_and.mp hd hn)
  exact ⟨dvd_of_mod_eq_zero (not_not.mp hb.1), dvd_of_mod_eq_zero (not_not.mp hb.2)⟩

def DataRange.Apart (first second : DataRange) : Prop :=
  first.finish ≤ second.start ∨ second.finish ≤ first.start

theorem concludes_checkNeighbours {ranges : List DataRange}
    (hso : ranges.Pairwise fun first second => first.start ≤ second.start) :
    Concludes (checkNeighbours ranges)
      (fun _ => ranges.Pairwise fun first second => first.finish ≤ second.start) fun _ => True := by
  induction ranges with
  | nil => exact List.Pairwise.nil
  | cons first rest ih =>
    cases rest with
    | nil => exact pairwise_singleton _ _
    | cons second rest =>
      unfold checkNeighbours
      split
      · trivial
      rename_i hb
      obtain ⟨_, hs⟩ := pairwise_cons.mp hso
      apply (ih hs).mono
      intro _ ha
      refine pairwise_cons.mpr ⟨fun other hl => ?_, ha⟩
      rcases mem_cons.mp hl with rfl | hla
      · exact not_lt.mp hb
      · exact (not_lt.mp hb).trans ((pairwise_cons.mp hs).1 other hla)

theorem sorted_by_start (ranges : List DataRange) :
    (ranges.mergeSort fun first second => decide (first.start ≤ second.start)).Pairwise
      fun first second => first.start ≤ second.start := by
  have hs : (ranges.mergeSort fun first second => decide (first.start ≤ second.start)).Pairwise
      fun first second => decide (first.start ≤ second.start) = true := by
    apply pairwise_mergeSort
    · intro first second third hb ha
      rw [decide_eq_true_eq] at hb ha ⊢
      exact hb.trans ha
    · intro first second
      rw [Bool.or_eq_true, decide_eq_true_eq, decide_eq_true_eq]
      exact le_total _ _
  exact hs.imp fun hb => of_decide_eq_true hb

def rangeOf : DataRange :=
  ⟨tensor.dataOffset, tensor.dataOffset + tensor.byteLen, tensor.name⟩

variable {tensors : List TensorDescriptor}

theorem mapM_dataRange
    (fit : ∀ tensor ∈ tensors, tensor.dataOffset + tensor.byteLen ≤ maximum) :
    tensors.mapM dataRange = pure (tensors.map rangeOf) := by
  apply mapM_eq_pure
  intro tensor hl
  rw [dataRange, addUnchecked, if_pos (fit tensor hl)]
  rfl

def TensorDescriptor.Apart (first second : TensorDescriptor) : Prop :=
  first.byteLen ≠ 0 → second.byteLen ≠ 0 →
    first.dataOffset + first.byteLen ≤ second.dataOffset ∨
      second.dataOffset + second.byteLen ≤ first.dataOffset

theorem apart_of_ranges (ha : (((tensors.filter (·.byteLen ≠ 0)).map rangeOf).mergeSort
      (fun first second => decide (first.start ≤ second.start))).Pairwise
        fun first second => first.finish ≤ second.start) :
    tensors.Pairwise TensorDescriptor.Apart := by
  have hs : ((tensors.filter (·.byteLen ≠ 0)).map rangeOf).Pairwise DataRange.Apart :=
    ((mergeSort_perm _ _).pairwise_iff fun ha => Or.symm ha).mp (ha.imp fun hb => .inl hb)
  rw [pairwise_map, pairwise_filter] at hs
  exact hs.imp fun ha first second => ha (by simpa using first) (by simpa using second)

/-- A file that the reader accepts, with the cursor behind the last descriptor. -/
structure WellFormed (limits : Limits) (contents : List UInt8) (cursor : Codec.Cursor)
    (reader : Reader) : Prop where
  file : reader.contents = contents ∧ reader.limits = limits
  behind : cursorIn contents cursor
  tensorCount : reader.tensors.length ≤ limits.maxTensorCount.toNat
  metadataCount : reader.metadata.size ≤ limits.maxMetadataEntries.toNat
  metadata : EntriesWithin limits reader.metadata
  named : ∀ tensor ∈ reader.tensors, tensor.name ≠ "" ∧ TextWithin limits tensor.name
  distinct : (reader.tensors.map (·.name)).Nodup
  rank : ∀ tensor ∈ reader.tensors, tensor.dimensions.length ≤ limits.maxRank.toNat
  shaped : ∀ tensor ∈ reader.tensors, Shaped tensor
  aligned : ∀ tensor ∈ reader.tensors, reader.alignment ∣ tensor.dataOffset
  /-- All data lies behind the aligned end of the descriptors and within the file. -/
  placed : ∃ dataStart, Aligned cursor.position reader.alignment dataStart ∧
    ∀ tensor ∈ reader.tensors, Placed reader.alignment dataStart contents.length tensor
  apart : reader.tensors.Pairwise TensorDescriptor.Apart

theorem concludes_readAlignment (metadata : Metadata) :
    Concludes (readAlignment metadata) (fun alignment => alignment ≤ maximum) fun _ => True := by
  unfold readAlignment
  split
  · show defaultAlignment ≤ maximum
    decide
  · next value _ => exact value.toNat_lt.le.trans (by decide : 2 ^ 32 ≤ maximum)
  · next value _ => exact le_sub_one_of_lt value.toNat_lt
  · trivial

theorem concludes_endianOf (magic : List UInt8) :
    Concludes (endianOf magic) (fun _ => True) fun _ => True := by
  unfold endianOf
  split
  · trivial
  · split <;> trivial

theorem place_yields {reader : Reader} {raw : List RawTensor}
    (within : cursorIn contents cursor) (file : reader.contents = contents ∧ reader.limits = limits)
    (word : reader.alignment ≤ maximum) (count : raw.length ≤ limits.maxTensorCount.toNat)
    (entries : reader.metadata.size ≤ limits.maxMetadataEntries.toNat)
    (metadata : EntriesWithin limits reader.metadata)
    (checked : ∀ tensor ∈ raw, RawWithin limits tensor) (distinct : (raw.map (·.name)).Nodup) :
    (reader.place raw contents.length).Yields cursor
      (fun after last => WellFormed limits contents last after)
      (fun fault _ => Orderly limits contents fault) := by
  unfold place pos
  rw [yields_bind, yields_bind, yields_get, yields_pure]
  rw [yields_bind]
  apply yields_of_concludes (concludes_alignUp word) _ fun _ => id
  intro dataStart start
  split
  · exact trivial
  rw [yields_bind]
  apply (withCapacity_yields count (·.tensors)).mono _ fun _ _ => id
  rintro _ _ ⟨-, rfl⟩
  rw [yields_bind]
  apply yields_of_concludes
    (concludes_mapM fun tensor _ => concludes_describe tensor _ _ _) _ fun _ => id
  intro tensors described
  have each : ∀ tensor ∈ tensors, ((tensor.name ≠ "" ∧ TextWithin limits tensor.name) ∧
      tensor.dimensions.length ≤ limits.maxRank.toNat) ∧
        Shaped tensor ∧ Placed reader.alignment dataStart contents.length tensor := by
    intro tensor listed
    obtain ⟨original, source, ⟨name, dimensions⟩, others⟩ := exists_of_forall₂ described listed
    have read := checked original source
    rw [name, dimensions]
    exact ⟨⟨⟨read.named, read.text⟩, read.rank⟩, others⟩
  have names : tensors.map (·.name) = raw.map (·.name) := by
    rw [← forall₂_eq_eq_eq, forall₂_map_left_iff, forall₂_map_right_iff]
    exact described.flip.imp fun _ _ both => both.1.1
  rw [mapM_dataRange fun tensor listed => (each tensor (mem_filter.mp listed).1).2.2.word,
    pure_bind, yields_bind]
  apply yields_of_concludes (concludes_checkNeighbours (sorted_by_start _)) _ fun _ => id
  intro _ apart
  exact {
    file
    behind := within
    tensorCount := by
      rw [← described.length_eq]
      exact count
    metadataCount := entries
    metadata
    named tensor listed := (each tensor listed).1.1
    distinct := by rwa [names]
    rank tensor listed := (each tensor listed).1.2
    shaped tensor listed := (each tensor listed).2.1
    aligned tensor listed := by
      rw [(each tensor listed).2.2.start]
      exact dvd_add start.multiple (each tensor listed).2.2.aligned
    placed := ⟨dataStart, start, fun tensor listed => (each tensor listed).2.2⟩
    apart := apart_of_ranges apart }

theorem parse_yields (contents : List UInt8) (limits : Limits) :
    (parse limits.maxMetadataDepth.toNat limits contents contents.length).Yields ⟨contents, 0⟩
      (fun reader cursor => WellFormed limits contents cursor reader)
      (fun fault _ => Orderly limits contents fault) := by
  have within : cursorIn contents ⟨contents, 0⟩ := ⟨zero_le _, rfl⟩
  apply ((parses_exact 4).mono (fun _ => id) (zero_le _)).then within
  intro magic _ _ within
  apply (parses_ofResult (concludes_endianOf magic)).then within
  intro endian _ _ within
  apply (parses_u32 ⟨endian, 0, limits⟩).then within
  intro version _ _ within
  split
  · exact trivial
  generalize named : (⟨endian, version.toNat, limits⟩ : Parser) = parser
  obtain rfl : parser.limits = limits := by rw [← named]
  apply (parses_count parser).then within
  intro tensorCount _ _ within
  apply (parses_ofResult concludes_checkLimit).then within
  intro _ _ tensors within
  apply (parses_count parser).then within
  intro metadataCount _ _ within
  apply (parses_ofResult concludes_checkLimit).then within
  intro _ _ entries within
  apply (parses_entries parser _ metadataCount le_rfl (by simp [EntriesWithin])).then within
  rintro metadata _ ⟨size, each⟩ within
  apply (parses_ofResult (concludes_readAlignment metadata)).then within
  intro alignment _ word within
  split
  · exact trivial
  apply (parses_withCapacity tensors fun bounded =>
    (Nat.mul_le_mul_left _ (by decide)).trans bounded.tensors).then within
  intro _ _ _ within
  apply (parses_rawTensors parser tensorCount (by simp) (by simp)).then within
  rintro raw last ⟨counted, checked, distinct⟩ within
  rw [Std.TreeMap.size_emptyc, zero_add] at size
  rw [length_nil, zero_add] at counted
  exact place_yields within ⟨rfl, rfl⟩ word (counted ▸ tensors) (size ▸ entries) each checked distinct

theorem run_ok {reader : Reader}
    (accepted : run limits.maxMetadataDepth.toNat contents limits = (.ok reader, cursor)) :
    WellFormed limits contents cursor reader := by
  have formed := (parse_yields contents limits).of_ok (congrArg Prod.fst accepted)
  rwa [show (outcome _ _).2 = _ from congrArg Prod.snd accepted] at formed

end Eredu.Gguf
