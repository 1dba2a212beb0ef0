import Eredu.Gguf.Accepted
import Eredu.Gguf.Writer

/-!
# What the encoder writes, the parser reads

For each part of a file this module gives its bytes, proves that the encoder
emits them and that the parser reads the part back from them. The second half is
stated as a fact that a successful run of the encoder establishes: the counts of
the first version fit in 32 bits only because the encoder has checked it.
-/

namespace Eredu.Gguf

open List Codec Encoder UInt32
open Codec (Reads Emits)

/-- A parser for the files of an encoder. -/
structure Parser.For (encoder : Encoder) (parser : Parser) : Prop where
  endian : parser.endian = encoder.endian
  version : parser.version = encoder.version

theorem maxMetadataDepth_le (limits : Limits) : limits.maxMetadataDepth.toNat ≤ maximumDepth :=
  Nat.le_sub_one_of_lt limits.maxMetadataDepth.toNat_lt

section Words

variable (encoder : Encoder)

theorem emits_u8 (value : UInt8) : Emits (u8 value) [value] fun _ => True :=
  emits_writeAll _ _

theorem emits_u16 (value : UInt16) :
    Emits (encoder.u16 value) (encoder.endian.put 2 value.toNat) fun _ => True :=
  emits_writeAll _ _

theorem emits_u32 (value : UInt32) :
    Emits (encoder.u32 value) (encoder.endian.put 4 value.toNat) fun _ => True :=
  emits_writeAll _ _

theorem emits_u64 (value : UInt64) :
    Emits (encoder.u64 value) (encoder.endian.put 8 value.toNat) fun _ => True :=
  emits_writeAll _ _

theorem emits_count {value : Nat} (hw : value < 2 ^ 64) :
    Emits (encoder.count value) (countBytes encoder.endian encoder.version value)
      fun _ => Countable encoder.version value := by
  unfold Encoder.count countBytes
  split
  · next hf =>
    split
    · next hfi =>
      have he := emits_u32 encoder (ofNat value)
      rw [toNat_ofNat_of_lt' hfi] at he
      exact he.mono fun _ _ => ⟨hw, fun _ => hfi⟩
    · exact emits_fail _ _ _
  · next hl =>
    have he := emits_u64 encoder (UInt64.ofNat value)
    rw [UInt64.toNat_ofNat_of_lt' hw] at he
    exact he.mono fun _ _ => ⟨hw, fun hf => absurd hf hl⟩

def TextReads (text : String) : Prop :=
  ∀ parser : Parser, parser.For encoder → TextWithin parser.limits text →
    Reads parser.string (stringBytes encoder.endian encoder.version text) text

theorem emits_string {text : String} (hwo : (asBytes text).length < 2 ^ 64) :
    Emits (encoder.string text) (stringBytes encoder.endian encoder.version text)
      fun _ => TextReads encoder text := by
  apply (emits_count encoder hwo).bind
  intro _ hc
  apply (emits_writeAll _ _).mono
  intro _ _ parser hf hw
  rw [← hf.version] at hc
  have hr := reads_string parser hc hw
  rwa [hf.endian, hf.version] at hr

theorem emits_bool (value : Bool) : Emits (bool value) [if value then 1 else 0] fun _ => True :=
  emits_u8 _

theorem reads_bool (value : Bool) : Reads Parser.bool [if value then 1 else 0] value := by
  cases value with
  | false => exact (reads_u8 0).then_pure (reads_pure false)
  | true => exact (reads_u8 1).then_pure (reads_pure true)

theorem toNat_typeCode (whole : MetadataArray) : (ofNat whole.typeCode).toNat = whole.typeCode := by
  cases whole <;> rfl

end Words

mutual

def itemBytes (endian : Endian) (version : Nat) : MetadataArray → List UInt8
  | .uint8 values => values.flatMap fun value => [value]
  | .int8 values => values.flatMap fun value => [value.toUInt8]
  | .uint16 values => values.flatMap fun value => endian.put 2 value.toNat
  | .int16 values => values.flatMap fun value => endian.put 2 value.toUInt16.toNat
  | .uint32 values => values.flatMap fun value => endian.put 4 value.toNat
  | .int32 values => values.flatMap fun value => endian.put 4 value.toUInt32.toNat
  | .float32 bits => bits.flatMap fun value => endian.put 4 value.toNat
  | .bool values => values.flatMap fun value => [if value then 1 else 0]
  | .string values => values.flatMap (stringBytes endian version)
  | .array values => arraysBytes endian version values
  | .uint64 values => values.flatMap fun value => endian.put 8 value.toNat
  | .int64 values => values.flatMap fun value => endian.put 8 value.toUInt64.toNat
  | .float64 bits => bits.flatMap fun value => endian.put 8 value.toNat

def arraysBytes (endian : Endian) (version : Nat) : List MetadataArray → List UInt8
  | [] => []
  | first :: rest =>
    (endian.put 4 first.typeCode ++ (countBytes endian version first.len ++
      itemBytes endian version first)) ++ arraysBytes endian version rest

end

def arrayBytes (endian : Endian) (version : Nat) (whole : MetadataArray) : List UInt8 :=
  endian.put 4 whole.typeCode ++ (countBytes endian version whole.len ++
    itemBytes endian version whole)

theorem arraysBytes_eq (endian : Endian) (version : Nat) (values : List MetadataArray) :
    arraysBytes endian version values = values.flatMap (arrayBytes endian version) := by
  induction values with
  | nil => rfl
  | cons first rest ih =>
    rw [arraysBytes, flatMap_cons, ih]
    rfl

variable {limits : Limits}

section Arrays

variable (encoder : Encoder) (whole : MetadataArray)

def ArrayReads : Prop :=
  ∀ (parser : Parser) (frames depth : Nat), parser.For encoder → whole.Within parser.limits depth →
    parser.limits.maxMetadataDepth.toNat < depth + frames →
    Reads (parser.array frames depth) (arrayBytes encoder.endian encoder.version whole) whole

def ItemsRead : Prop :=
  ∀ (parser : Parser) (frames depth : Nat), parser.For encoder → whole.Within parser.limits depth →
    parser.limits.maxMetadataDepth.toNat < depth + 1 + frames →
    Reads (parser.arrayItems (do
        let deeper ← addUnchecked maximumDepth depth 1
        parser.array frames deeper) whole.len whole.typeCode)
      (itemBytes encoder.endian encoder.version whole) whole

variable {whole : MetadataArray} {depth : Nat}

theorem MetadataArray.Within.shallow (hw : whole.Within limits depth) :
    depth ≤ limits.maxMetadataDepth.toNat := by
  unfold MetadataArray.Within at hw
  exact hw.1

theorem MetadataArray.Within.short (hw : whole.Within limits depth) :
    whole.len ≤ limits.maxArrayElements.toNat ∧ whole.len * whole.itemSize ≤ largestAllocation := by
  unfold MetadataArray.Within at hw
  exact hw.2.1

theorem arrayReads_of_items (hc : Countable encoder.version whole.len)
    (hi : ItemsRead encoder whole) : ArrayReads encoder whole := by
  intro parser frames depth hf hw he
  have hs := hw.shallow
  cases frames with
  | zero => omega
  | succ frames =>
    unfold Parser.array arrayBytes
    rw [if_neg (not_lt.mpr hs)]
    have ht := reads_u32 parser (ofNat whole.typeCode)
    rw [toNat_typeCode, hf.endian] at ht
    have hco := reads_count parser (hf.version ▸ hc)
    rw [hf.endian, hf.version] at hco
    apply ht.bind
    apply hco.bind
    apply (reads_checkLimit hw.short.1).skip
    rw [toNat_typeCode]
    exact hi parser frames depth hf hw (by omega)

theorem emits_array_of_items {items : WriteM Unit} (hu : encoder.array whole = do
      encoder.u32 (ofNat whole.typeCode)
      encoder.count whole.len
      items) (hw : whole.len < 2 ^ 64)
    (he : Emits items (itemBytes encoder.endian encoder.version whole) fun _ =>
      ItemsRead encoder whole) :
    Emits (encoder.array whole) (arrayBytes encoder.endian encoder.version whole) fun _ =>
      ArrayReads encoder whole := by
  have ht := emits_u32 encoder (ofNat whole.typeCode)
  rw [toNat_typeCode] at ht
  rw [hu]
  apply ht.bind
  intro _ _
  apply (emits_count encoder hw).bind
  intro _ hc
  exact he.mono fun _ items => arrayReads_of_items encoder hc items

section Words

variable {α : Type} {values : List α} {make : List α → MetadataArray} {encode : α → List UInt8}
  {item : Parser → ParseM α}
  (hb : itemBytes encoder.endian encoder.version (make values) = values.flatMap encode)
  (hp : ∀ (parser : Parser) nested,
    parser.arrayItems nested (make values).len (make values).typeCode =
      Parser.vals (make values).itemSize make (item parser) (make values).len)
  (counted : (make values).len = values.length)
  (hr : ∀ parser : Parser, parser.For encoder → ∀ value, Reads (item parser) (encode value) value)

include hb hp counted hr

theorem itemsRead_words : ItemsRead encoder (make values) := by
  intro parser frames depth hf within _
  rw [hb, hp]
  apply (reads_withCapacity within.short.2).skip
  rw [counted]
  exact (reads_times fun value _ => hr parser hf value).map make

theorem emits_words {write : α → WriteM Unit} (hu : encoder.array (make values) = do
      encoder.u32 (ofNat (make values).typeCode)
      encoder.count (make values).len
      values.forM write) (hw : (make values).len < 2 ^ 64)
    (he : ∀ value, Emits (write value) (encode value) fun _ => True) :
    Emits (encoder.array (make values)) (arrayBytes encoder.endian encoder.version (make values))
      fun _ => ArrayReads encoder (make values) := by
  have hi : Emits (values.forM write) (values.flatMap encode) fun _ => ∀ value ∈ values, True :=
    emits_forM fun value _ => he value
  rw [← hb] at hi
  exact emits_array_of_items encoder hu hw (hi.mono fun _ _ => itemsRead_words encoder hb hp counted hr)

end Words

theorem arrays_eq_forM (values : List MetadataArray) :
    encoder.arrays values = values.forM encoder.array := by
  induction values with
  | nil => rw [arrays]; rfl
  | cons first rest ih =>
    rw [arrays, ih]
    rfl

theorem emits_strings {values : List String}
    (ht : ∀ text ∈ values, TextWithin limits text) :
    Emits (values.forM encoder.string) (itemBytes encoder.endian encoder.version (.string values))
      fun _ => ItemsRead encoder (.string values) := by
  have hwr : Emits (values.forM encoder.string)
      (values.flatMap (stringBytes encoder.endian encoder.version))
      fun _ => ∀ text ∈ values, TextReads encoder text :=
    emits_forM fun text hl => emits_string encoder
      ((ht text hl).1.trans_lt limits.maxStringBytes.toNat_lt)
  apply hwr.mono
  intro _ he parser frames depth hf hw _
  apply (reads_withCapacity hw.short.2).skip
  exact (reads_times fun text hl => he text hl parser hf (hw.2.2 text hl)).map MetadataArray.string

theorem emits_nested {values : List MetadataArray}
    (hea : ∀ value ∈ values, value.Within limits depth →
      Emits (encoder.array value) (arrayBytes encoder.endian encoder.version value) fun _ =>
        ArrayReads encoder value) (hwi : ∀ value ∈ values, value.Within limits depth) :
    Emits (encoder.arrays values) (itemBytes encoder.endian encoder.version (.array values))
      fun _ => ItemsRead encoder (.array values) := by
  have hwr : Emits (values.forM encoder.array)
      (values.flatMap (arrayBytes encoder.endian encoder.version))
      fun _ => ∀ value ∈ values, ArrayReads encoder value :=
    emits_forM fun value hl => hea value hl (hwi value hl)
  rw [arrays_eq_forM, itemBytes, arraysBytes_eq]
  apply hwr.mono
  intro _ hr parser frames level hf hw he
  have hi := MetadataArray.allWithin_iff.mp hw.2.2
  rw [itemBytes, arraysBytes_eq]
  apply (reads_withCapacity hw.short.2).skip
  apply (reads_times _).map MetadataArray.array
  intro value hl
  -- An array that is there lies within the limit, so its depth can be counted.
  have hs := (hi value hl).shallow
  have hc := maxMetadataDepth_le parser.limits
  rw [addUnchecked, if_pos (by omega), pure_bind]
  exact hr value hl parser frames (level + 1) hf (hi value hl) he

theorem emits_array (whole : MetadataArray) (hwi : whole.Within limits depth) :
    Emits (encoder.array whole) (arrayBytes encoder.endian encoder.version whole) fun _ =>
      ArrayReads encoder whole := by
  induction whole using MetadataArray.inductionOn generalizing depth with
  | nested values ih =>
    have hw := hwi.short.1.trans_lt limits.maxArrayElements.toNat_lt
    apply emits_array_of_items encoder (by rw [array]) hw
    exact emits_nested encoder (fun value hl => ih value hl)
      (MetadataArray.allWithin_iff.mp hwi.2.2)
  | flat plain hn =>
    have hw := hwi.short.1.trans_lt limits.maxArrayElements.toNat_lt
    cases plain with
    | array values => exact absurd rfl (hn values)
    | string values =>
      exact emits_array_of_items encoder (by rw [array]) hw (emits_strings encoder hwi.2.2)
    | uint8 values =>
      have hwr := emits_writeAll (GgufError.io 0) values
      apply emits_array_of_items encoder (by rw [array]) hw
      rw [itemBytes, flatMap_singleton']
      exact hwr.mono fun _ _ => itemsRead_words encoder (by rw [itemBytes]) (fun _ _ => rfl) rfl
        fun _ _ value => reads_u8 value
    | int8 values =>
      have hwr := emits_writeAll (GgufError.io 0) (values.map Int8.toUInt8)
      apply emits_array_of_items encoder (by rw [array]) hw
      rw [itemBytes, ← map_eq_flatMap]
      exact hwr.mono fun _ _ => itemsRead_words encoder (by rw [itemBytes]) (fun _ _ => rfl) rfl
        fun _ _ value => (reads_u8 value.toUInt8).map UInt8.toInt8
    | uint16 values =>
      exact emits_words encoder (by rw [itemBytes]) (fun _ _ => rfl) rfl
        (fun parser hf value => hf.endian ▸ reads_u16 parser value) (by rw [array]) hw
        (emits_u16 encoder)
    | int16 values =>
      exact emits_words encoder (by rw [itemBytes]) (fun _ _ => rfl) rfl
        (fun parser hf value => hf.endian ▸ (reads_u16 parser value.toUInt16).map UInt16.toInt16)
        (by rw [array]) hw fun value => emits_u16 encoder value.toUInt16
    | uint32 | float32 =>
      exact emits_words encoder (by rw [itemBytes]) (fun _ _ => rfl) rfl
        (fun parser hf value => hf.endian ▸ reads_u32 parser value) (by rw [array]) hw
        (emits_u32 encoder)
    | int32 values =>
      exact emits_words encoder (by rw [itemBytes]) (fun _ _ => rfl) rfl
        (fun parser hf value => hf.endian ▸ (reads_u32 parser value.toUInt32).map toInt32)
        (by rw [array]) hw fun value => emits_u32 encoder value.toUInt32
    | bool values =>
      exact emits_words encoder (by rw [itemBytes]) (fun _ _ => rfl) rfl (fun _ _ => reads_bool)
        (by rw [array]) hw emits_bool
    | uint64 | float64 =>
      exact emits_words encoder (by rw [itemBytes]) (fun _ _ => rfl) rfl
        (fun parser hf value => hf.endian ▸ reads_u64 parser value) (by rw [array]) hw
        (emits_u64 encoder)
    | int64 values =>
      exact emits_words encoder (by rw [itemBytes]) (fun _ _ => rfl) rfl
        (fun parser hf value => hf.endian ▸ (reads_u64 parser value.toUInt64).map UInt64.toInt64)
        (by rw [array]) hw fun value => emits_u64 encoder value.toUInt64

end Arrays

variable {entries : List (String × MetadataValue)} {parser : Parser}

section Values

variable (encoder : Encoder) (endian : Endian) (version : Nat)

def valueBytes : MetadataValue → List UInt8
  | .uint8 value => [value]
  | .int8 value => [value.toUInt8]
  | .uint16 value => endian.put 2 value.toNat
  | .int16 value => endian.put 2 value.toUInt16.toNat
  | .uint32 value => endian.put 4 value.toNat
  | .int32 value => endian.put 4 value.toUInt32.toNat
  | .float32 bits => endian.put 4 bits.toNat
  | .bool value => [if value then 1 else 0]
  | .string value => stringBytes endian version value
  | .array value => arrayBytes endian version value
  | .uint64 value => endian.put 8 value.toNat
  | .int64 value => endian.put 8 value.toUInt64.toNat
  | .float64 bits => endian.put 8 bits.toNat

def ValueReads (value : MetadataValue) : Prop :=
  ∀ (parser : Parser) (frames : Nat), parser.For encoder → value.Within parser.limits →
    parser.limits.maxMetadataDepth.toNat ≤ frames →
    Reads (parser.value frames value.typeCode 0) (valueBytes encoder.endian encoder.version value)
      value

theorem emits_value {value : MetadataValue} (hwi : value.Within limits) :
    Emits (encoder.value value) (valueBytes encoder.endian encoder.version value) fun _ =>
      ValueReads encoder value := by
  cases value with
  | uint8 value => exact (emits_u8 value).mono fun _ _ _ _ _ _ _ => (reads_u8 value).map _
  | int8 value =>
    exact (emits_u8 value.toUInt8).mono fun _ _ _ _ _ _ _ => (reads_u8 value.toUInt8).map _
  | uint16 value =>
    exact (emits_u16 encoder value).mono fun _ _ parser _ hf _ _ =>
      hf.endian ▸ (reads_u16 parser value).map MetadataValue.uint16
  | int16 value =>
    exact (emits_u16 encoder value.toUInt16).mono fun _ _ parser _ hf _ _ =>
      hf.endian ▸ (reads_u16 parser value.toUInt16).map (MetadataValue.int16 ∘ UInt16.toInt16)
  | uint32 value =>
    exact (emits_u32 encoder value).mono fun _ _ parser _ hf _ _ =>
      hf.endian ▸ (reads_u32 parser value).map MetadataValue.uint32
  | int32 value =>
    exact (emits_u32 encoder value.toUInt32).mono fun _ _ parser _ hf _ _ =>
      hf.endian ▸ (reads_u32 parser value.toUInt32).map (MetadataValue.int32 ∘ toInt32)
  | float32 bits =>
    exact (emits_u32 encoder bits).mono fun _ _ parser _ hf _ _ =>
      hf.endian ▸ (reads_u32 parser bits).map MetadataValue.float32
  | bool value =>
    exact (emits_bool value).mono fun _ _ _ _ _ _ _ => (reads_bool value).map MetadataValue.bool
  | string text =>
    apply (emits_string encoder (hwi.1.trans_lt limits.maxStringBytes.toNat_lt)).mono
    intro _ hr parser _ hf ht _
    exact (hr parser hf ht).map MetadataValue.string
  | array whole =>
    apply (emits_array encoder whole hwi).mono
    intro _ hr parser frames hf hw he
    have hs := MetadataArray.Within.shallow hw
    have hc := maxMetadataDepth_le parser.limits
    show Reads (do
      let deeper ← addUnchecked maximumDepth 0 1
      MetadataValue.array <$> parser.array frames deeper) _ _
    rw [addUnchecked, if_pos (by omega), pure_bind]
    exact (hr parser frames 1 hf hw (by omega)).map MetadataValue.array
  | uint64 value =>
    exact (emits_u64 encoder value).mono fun _ _ parser _ hf _ _ =>
      hf.endian ▸ (reads_u64 parser value).map MetadataValue.uint64
  | int64 value =>
    exact (emits_u64 encoder value.toUInt64).mono fun _ _ parser _ hf _ _ =>
      hf.endian ▸ (reads_u64 parser value.toUInt64).map (MetadataValue.int64 ∘ UInt64.toInt64)
  | float64 bits =>
    exact (emits_u64 encoder bits).mono fun _ _ parser _ hf _ _ =>
      hf.endian ▸ (reads_u64 parser bits).map MetadataValue.float64

theorem toNat_valueTypeCode (value : MetadataValue) :
    (ofNat value.typeCode).toNat = value.typeCode := by
  cases value <;> rfl

variable (entry : String × MetadataValue)

def entryBytes : List UInt8 :=
  stringBytes endian version entry.1 ++ (endian.put 4 entry.2.typeCode ++
    valueBytes endian version entry.2)

def EntryWithin (limits : Limits) (entry : String × MetadataValue) : Prop :=
  TextWithin limits entry.1 ∧ entry.2.Within limits

/-- The entry is read back into every map that does not have its key. -/
def EntryReads : Prop :=
  ∀ (parser : Parser) (frames : Nat) (metadata : Metadata), parser.For encoder →
    EntryWithin parser.limits entry → parser.limits.maxMetadataDepth.toNat ≤ frames →
    metadata.contains entry.1 = false →
    Reads (parser.entry frames metadata) (entryBytes encoder.endian encoder.version entry)
      (metadata.insert entry.1 entry.2)

theorem emits_entry {entry : String × MetadataValue} (hw : EntryWithin limits entry) :
    Emits (encoder.entry entry.1 entry.2) (entryBytes encoder.endian encoder.version entry) fun _ =>
      EntryReads encoder entry := by
  obtain ⟨key, value⟩ := entry
  have ht := emits_u32 encoder (ofNat value.typeCode)
  rw [toNat_valueTypeCode] at ht
  unfold entry entryBytes
  split
  · exact emits_fail _ _ _
  rename_i hp
  apply (emits_string encoder (hw.1.1.trans_lt limits.maxStringBytes.toNat_lt)).bind
  intro _ hk
  apply ht.bind
  intro _ _
  apply (emits_value encoder hw.2).mono
  intro _ hv parser frames metadata hf he hen ha
  have hc := reads_u32 parser (ofNat value.typeCode)
  rw [toNat_valueTypeCode, hf.endian] at hc
  apply (hk parser hf he.1).bind
  rw [if_neg hp]
  apply hc.bind
  rw [toNat_valueTypeCode]
  apply (hv parser frames hf he.2 hen).then_pure
  rw [ha, if_neg Bool.false_ne_true]
  exact reads_pure _

def withEntries (metadata : Metadata) (entries : List (String × MetadataValue)) : Metadata :=
  entries.foldl (fun metadata entry => metadata.insert entry.1 entry.2) metadata

theorem reads_entries {frames : Nat} (hfi : parser.For encoder)
    (he : parser.limits.maxMetadataDepth.toNat ≤ frames) {metadata : Metadata}
    (hrs : ∀ entry ∈ entries, EntryReads encoder entry)
    (hwn : ∀ entry ∈ entries, EntryWithin parser.limits entry)
    (hfh : ∀ entry ∈ entries, metadata.contains entry.1 = false) (hd : (entries.map (·.1)).Nodup) :
    Reads (parser.entries frames entries.length metadata)
      (entries.flatMap (entryBytes encoder.endian encoder.version))
      (withEntries metadata entries) := by
  induction entries generalizing metadata with
  | nil => exact reads_pure metadata
  | cons entry entries ih =>
    obtain ⟨hr, hre⟩ := forall_mem_cons.mp hrs
    obtain ⟨hw, hwi⟩ := forall_mem_cons.mp hwn
    obtain ⟨hf, hfr⟩ := forall_mem_cons.mp hfh
    rw [map_cons, nodup_cons] at hd
    apply (hr parser frames metadata hfi hw he hf).bind
    apply ih hre hwi _ hd.2
    intro other hl
    rw [Std.TreeMap.contains_insert, hfr other hl, Bool.or_false, beq_eq_false_iff_ne,
      Ne, Std.compare_eq_iff_eq]
    rintro hs
    exact hd.1 (mem_map.mpr ⟨other, hl, hs.symm⟩)

theorem lookup_withEntries (hd : (entries.map (·.1)).Nodup) (metadata : Metadata) (key : String)
    (value : MetadataValue) : (withEntries metadata entries)[key]? = some value ↔
      (key, value) ∈ entries ∨ key ∉ entries.map (·.1) ∧ metadata[key]? = some value := by
  induction entries generalizing metadata with
  | nil => simp [withEntries]
  | cons entry entries ih =>
    obtain ⟨first, stored⟩ := entry
    rw [map_cons, nodup_cons] at hd
    show (withEntries (metadata.insert first stored) entries)[key]? = some value ↔ _
    rw [ih hd.2, lookup_insert, map_cons, mem_cons, mem_cons]
    by_cases hs : key = first
    · subst hs
      have ha : ∀ other, (key, other) ∉ entries := fun other hl => hd.1 (mem_map.mpr ⟨_, hl, rfl⟩)
      simp [ha, eq_comm]
    · simp [hs]

theorem lookup_withEntries_toList (metadata : Metadata) (key : String) :
    (withEntries ∅ metadata.toList)[key]? = metadata[key]? := by
  have hd : (metadata.toList.map (·.1)).Nodup := by
    rw [Std.TreeMap.map_fst_toList_eq_keys]
    exact Std.TreeMap.nodup_keys
  apply Option.ext
  intro value
  rw [lookup_withEntries hd]
  simp

end Values

section Descriptors

variable (encoder : Encoder) (placed : TensorInput × Nat)

/-- A tensor and its offset as they stand in the file. -/
def rawOf : RawTensor :=
  ⟨placed.1.name, placed.1.dimensions, placed.1.ggmlType, placed.2⟩

def descriptorBytes (endian : Endian) (version : Nat) (placed : TensorInput × Nat) : List UInt8 :=
  stringBytes endian version placed.1.name ++ (endian.put 4 placed.1.dimensions.length ++
    (placed.1.dimensions.flatMap (countBytes endian version) ++
      (endian.put 4 placed.1.ggmlType.code.toNat ++ endian.put 8 placed.2)))

def TensorWithin (limits : Limits) (tensor : TensorInput) : Prop :=
  TextWithin limits tensor.name ∧ tensor.dimensions.length ≤ limits.maxRank.toNat

def DescriptorReads : Prop :=
  ∀ (parser : Parser) (seen : List RawTensor), parser.For encoder →
    TensorWithin parser.limits placed.1 → placed.1.name ≠ "" →
    (∀ raw ∈ seen, raw.name ≠ placed.1.name) →
    Reads (parser.rawTensor seen) (descriptorBytes encoder.endian encoder.version placed)
      (rawOf placed)

theorem emits_descriptor {placed : TensorInput × Nat} (hw : TensorWithin limits placed.1)
    (ho : placed.2 ≤ Word.maximum) {geometry : Nat × Nat}
    (ha : placed.1.ggmlType.blockAndBytes = .ok geometry) :
    Emits (encoder.descriptor placed.1 placed.2)
      (descriptorBytes encoder.endian encoder.version placed) fun _ =>
        DescriptorReads encoder placed := by
  obtain ⟨tensor, start⟩ := placed
  have hsm : start < 2 ^ 64 := by
    unfold Word.maximum at ho
    dsimp only at ho
    omega
  have hs : (UInt64.ofNat start).toNat = start := UInt64.toNat_ofNat_of_lt' hsm
  unfold descriptor descriptorBytes
  apply (emits_string encoder (hw.1.1.trans_lt limits.maxStringBytes.toNat_lt)).bind
  intro _ hn
  split
  · next hra =>
    have hr : (ofNat tensor.dimensions.length).toNat = tensor.dimensions.length :=
      toNat_ofNat_of_lt' hra
    have hr2 := emits_u32 encoder (ofNat tensor.dimensions.length)
    rw [hr] at hr2
    apply hr2.bind
    intro _ _
    have hd : Emits (tensor.dimensions.forM encoder.dimension)
        (tensor.dimensions.flatMap (countBytes encoder.endian encoder.version))
        fun _ => ∀ dimension ∈ tensor.dimensions, Countable encoder.version dimension :=
      emits_forM fun dimension hl => emits_count encoder (by
        have hf := tensor.fits dimension hl
        unfold Word.maximum at hf
        omega)
    apply hd.bind
    intro _ hc
    apply (emits_u32 encoder tensor.ggmlType.code).bind
    intro _ _
    have hla := emits_u64 encoder (UInt64.ofNat start)
    rw [hs] at hla
    apply hla.mono
    intro _ _ parser seen hf ht hna hfr
    unfold Parser.rawTensor
    apply (hn parser hf ht.1).bind
    rw [if_neg (by simpa using hna), if_neg (by
      rw [any_eq_true]
      rintro ⟨raw, hl, hsa⟩
      exact hfr raw hl (beq_iff_eq.mp hsa))]
    have hrk := reads_u32 parser (ofNat tensor.dimensions.length)
    rw [hr, hf.endian] at hrk
    apply hrk.bind
    rw [if_neg (by
      rw [UInt32.not_lt, UInt32.le_iff_toNat_le, hr]
      exact ht.2), hr]
    apply (reads_times fun dimension hl => by
      have hrd := reads_count parser (hf.version ▸ hc dimension hl)
      rwa [hf.endian, hf.version] at hrd).bind
    apply (hf.endian ▸ reads_u32 parser tensor.ggmlType.code).bind
    have hre := reads_u64 parser (UInt64.ofNat start)
    rw [hs, hf.endian] at hre
    apply hre.then_pure
    rw [hs, GgmlType.fromCode_code ha]
    exact reads_pure _
  · exact emits_fail _ _ _

theorem reads_rawTensors (hf : parser.For encoder)
    {placed : List (TensorInput × Nat)} {seen : List RawTensor}
    (hrs : ∀ item ∈ placed, DescriptorReads encoder item)
    (hwn : ∀ item ∈ placed, TensorWithin parser.limits item.1)
    (hnd : ∀ item ∈ placed, item.1.name ≠ "")
    (hd : (seen.map (·.name) ++ placed.map (·.1.name)).Nodup) :
    Reads (parser.rawTensors placed.length seen)
      (placed.flatMap (descriptorBytes encoder.endian encoder.version))
      (seen ++ placed.map rawOf) := by
  induction placed generalizing seen with
  | nil =>
    rw [map_nil, append_nil]
    exact reads_pure seen
  | cons item placed ih =>
    obtain ⟨hr, hre⟩ := forall_mem_cons.mp hrs
    obtain ⟨hw, hwi⟩ := forall_mem_cons.mp hwn
    obtain ⟨hn, hna⟩ := forall_mem_cons.mp hnd
    rw [map_cons, nodup_append] at hd
    rw [flatMap_cons, map_cons, append_cons seen]
    apply (hr parser seen hf hw hn fun raw hl =>
      hd.2.2 raw.name (mem_map.mpr ⟨raw, hl, rfl⟩) _ mem_cons_self).bind
    apply ih hre hwi hna
    rw [map_append, map_singleton, append_assoc, singleton_append]
    exact nodup_append.mpr hd

end Descriptors

end Eredu.Gguf
