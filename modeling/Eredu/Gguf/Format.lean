import Eredu.Foundation.Codec
import Eredu.Foundation.Utf8
import Eredu.Foundation.Word
import Std.Data.TreeMap

/-!
# The GGUF container format

Metadata values, tensor encodings and tensor descriptors as reader and writer
share them. Floating-point numbers are kept as their bit patterns: neither side
computes with them.
-/

namespace Eredu.Gguf

open Nat List Word Codec

inductive GgufError where
  | io (offset : Nat)
  | invalidHeader (reason : String)
  | invalidMetadata (key reason : String)
  | invalidTensor (tensor reason : String)
  | duplicateMetadata (key : String)
  | duplicateTensor (name : String)
  | unsupportedVersion (version : Nat)
  | unsupportedMetadataType (code : Nat)
  | unsupportedTensorType (code : Nat)
  | limit (resource : String) (actual limit : Nat)
  | overflow (computing : String)
  deriving Repr, DecidableEq

def defaultAlignment : Nat := 32

inductive Endian where
  | little
  | big
  deriving Repr, DecidableEq

def magicLittle : List UInt8 := [0x47, 0x47, 0x55, 0x46]
def magicBig : List UInt8 := [0x46, 0x55, 0x47, 0x47]

/-- The first bytes of a file: `GGUF` or `FUGG`. -/
def magicOf : Endian → List UInt8
  | .little => magicLittle
  | .big => magicBig

variable (endian : Endian) (width value : Nat)

/-- `put_u16`, `put_u32` and `put_u64`, by the width in bytes. -/
def Endian.put : List UInt8 :=
  match endian with
  | .little => leBytes width value
  | .big => (leBytes width value).reverse

/-- `u16`, `u32` and `u64`. -/
def Endian.take (bytes : List UInt8) : Nat :=
  match endian with
  | .little => ofLeBytes bytes
  | .big => ofLeBytes bytes.reverse

@[simp] theorem Endian.length_put : (endian.put width value).length = width := by
  cases endian <;> simp [Endian.put]

theorem Endian.take_put {width value : Nat} (hf : value < 256 ^ width) :
    endian.take (endian.put width value) = value := by
  cases endian <;> simp [Endian.put, Endian.take, ofLeBytes_leBytes hf]

inductive MetadataArray where
  | uint8 (values : List UInt8)
  | int8 (values : List Int8)
  | uint16 (values : List UInt16)
  | int16 (values : List Int16)
  | uint32 (values : List UInt32)
  | int32 (values : List Int32)
  | float32 (bits : List UInt32)
  | bool (values : List Bool)
  | string (values : List String)
  | array (values : List MetadataArray)
  | uint64 (values : List UInt64)
  | int64 (values : List Int64)
  | float64 (bits : List UInt64)
  deriving Repr

inductive MetadataValue where
  | uint8 (value : UInt8)
  | int8 (value : Int8)
  | uint16 (value : UInt16)
  | int16 (value : Int16)
  | uint32 (value : UInt32)
  | int32 (value : Int32)
  | float32 (bits : UInt32)
  | bool (value : Bool)
  | string (value : String)
  | array (value : MetadataArray)
  | uint64 (value : UInt64)
  | int64 (value : Int64)
  | float64 (bits : UInt64)
  deriving Repr

def MetadataArray.len : MetadataArray → Nat
  | .uint8 values => values.length
  | .int8 values => values.length
  | .uint16 values => values.length
  | .int16 values => values.length
  | .uint32 values => values.length
  | .int32 values => values.length
  | .float32 bits => bits.length
  | .bool values => values.length
  | .string values => values.length
  | .array values => values.length
  | .uint64 values => values.length
  | .int64 values => values.length
  | .float64 bits => bits.length

def MetadataArray.typeCode : MetadataArray → Nat
  | .uint8 _ => 0
  | .int8 _ => 1
  | .uint16 _ => 2
  | .int16 _ => 3
  | .uint32 _ => 4
  | .int32 _ => 5
  | .float32 _ => 6
  | .bool _ => 7
  | .string _ => 8
  | .array _ => 9
  | .uint64 _ => 10
  | .int64 _ => 11
  | .float64 _ => 12

def MetadataValue.typeCode : MetadataValue → Nat
  | .uint8 _ => 0
  | .int8 _ => 1
  | .uint16 _ => 2
  | .int16 _ => 3
  | .uint32 _ => 4
  | .int32 _ => 5
  | .float32 _ => 6
  | .bool _ => 7
  | .string _ => 8
  | .array _ => 9
  | .uint64 _ => 10
  | .int64 _ => 11
  | .float64 _ => 12

/-- Induction over arrays of arrays: what holds of the items of an array holds of the array. -/
@[elab_as_elim]
theorem MetadataArray.inductionOn {motive : MetadataArray → Prop} (whole : MetadataArray)
    (nested : ∀ values, (∀ value ∈ values, motive value) → motive (.array values))
    (flat : ∀ plain : MetadataArray, (∀ values, plain ≠ .array values) → motive plain) :
    motive whole :=
  @MetadataArray.rec motive (fun values => ∀ value ∈ values, motive value)
    (fun _ => flat _ (by simp)) (fun _ => flat _ (by simp)) (fun _ => flat _ (by simp))
    (fun _ => flat _ (by simp)) (fun _ => flat _ (by simp)) (fun _ => flat _ (by simp))
    (fun _ => flat _ (by simp)) (fun _ => flat _ (by simp)) (fun _ => flat _ (by simp))
    nested (fun _ => flat _ (by simp)) (fun _ => flat _ (by simp)) (fun _ => flat _ (by simp))
    (by simp) (fun _ _ first others => forall_mem_cons.mpr ⟨first, others⟩) whole

abbrev Metadata := Std.TreeMap String MetadataValue

def asBytes (text : String) : List UInt8 := Utf8.encode text.toList

def isAscii (text : String) : Bool := text.toList.all fun character => character.toNat < 128

/-- The longest key: `u16::MAX`. -/
def longestKey : Nat := 65535

inductive GgmlType where
  | f32
  | f16
  | q4_0
  | q4_1
  | q5_0
  | q5_1
  | q8_0
  | q2K
  | q3K
  | q4K
  | q5K
  | q6K
  | iq2xxs
  | iq2xs
  | iq3xxs
  | iq1s
  | iq4nl
  | iq3s
  | iq2s
  | iq4xs
  | i8
  | i16
  | i32
  | i64
  | f64
  | iq1m
  | bf16
  | removedIq4nl4_4
  | removedIq4nl4_8
  | removedIq4nl8_8
  | mxFp4
  | unknown (code : UInt32)
  deriving Repr, DecidableEq

namespace GgmlType

def fromCode (code : UInt32) : GgmlType :=
  match code.toNat with
  | 0 => f32
  | 1 => f16
  | 2 => q4_0
  | 3 => q4_1
  | 6 => q5_0
  | 7 => q5_1
  | 8 => q8_0
  | 10 => q2K
  | 11 => q3K
  | 12 => q4K
  | 13 => q5K
  | 14 => q6K
  | 16 => iq2xxs
  | 17 => iq2xs
  | 18 => iq3xxs
  | 19 => iq1s
  | 20 => iq4nl
  | 21 => iq3s
  | 22 => iq2s
  | 23 => iq4xs
  | 24 => i8
  | 25 => i16
  | 26 => i32
  | 27 => i64
  | 28 => f64
  | 29 => iq1m
  | 30 => bf16
  | 36 => removedIq4nl4_4
  | 37 => removedIq4nl4_8
  | 38 => removedIq4nl8_8
  | 39 => mxFp4
  | _ => unknown code

def code : GgmlType → UInt32
  | f32 => 0
  | f16 => 1
  | q4_0 => 2
  | q4_1 => 3
  | q5_0 => 6
  | q5_1 => 7
  | q8_0 => 8
  | q2K => 10
  | q3K => 11
  | q4K => 12
  | q5K => 13
  | q6K => 14
  | iq2xxs => 16
  | iq2xs => 17
  | iq3xxs => 18
  | iq1s => 19
  | iq4nl => 20
  | iq3s => 21
  | iq2s => 22
  | iq4xs => 23
  | i8 => 24
  | i16 => 25
  | i32 => 26
  | i64 => 27
  | f64 => 28
  | iq1m => 29
  | bf16 => 30
  | removedIq4nl4_4 => 36
  | removedIq4nl4_8 => 37
  | removedIq4nl8_8 => 38
  | mxFp4 => 39
  | unknown value => value

def blockAndBytes : GgmlType → Except GgufError (Nat × Nat)
  | f32 => .ok (1, 4)
  | f16 | bf16 | i16 => .ok (1, 2)
  | i8 => .ok (1, 1)
  | i32 => .ok (1, 4)
  | i64 | f64 => .ok (1, 8)
  | q4_0 => .ok (32, 18)
  | q4_1 => .ok (32, 20)
  | q5_0 => .ok (32, 22)
  | q5_1 => .ok (32, 24)
  | q8_0 => .ok (32, 34)
  | q2K => .ok (256, 84)
  | q3K => .ok (256, 110)
  | q4K => .ok (256, 144)
  | q5K => .ok (256, 176)
  | q6K => .ok (256, 210)
  | iq2xxs => .ok (256, 66)
  | iq2xs => .ok (256, 74)
  | iq3xxs => .ok (256, 98)
  | iq1s => .ok (256, 50)
  | iq4nl => .ok (32, 18)
  | iq3s => .ok (256, 110)
  | iq2s => .ok (256, 82)
  | iq4xs => .ok (256, 136)
  | iq1m => .ok (256, 56)
  | mxFp4 => .ok (32, 17)
  | removedIq4nl4_4 => .error (.unsupportedTensorType 36)
  | removedIq4nl4_8 => .error (.unsupportedTensorType 37)
  | removedIq4nl8_8 => .error (.unsupportedTensorType 38)
  | unknown value => .error (.unsupportedTensorType value.toNat)

theorem blockAndBytes_pos {type : GgmlType} {block bytes : Nat}
    (hg : type.blockAndBytes = .ok (block, bytes)) : 0 < block ∧ 0 < bytes := by
  cases type <;> simp only [blockAndBytes, Except.ok.injEq, Prod.mk.injEq, reduceCtorEq] at hg <;>
    omega

/-- Encodings that are accepted are told apart by their codes. -/
theorem fromCode_code {type : GgmlType} {geometry : Nat × Nat}
    (ha : type.blockAndBytes = .ok geometry) : fromCode type.code = type := by
  cases type <;> first | rfl | cases ha

end GgmlType

structure TensorDescriptor where
  name : String
  /-- Dimensions, fastest-moving first. -/
  dimensions : List Nat
  ggmlType : GgmlType
  relativeOffset : Nat
  dataOffset : Nat
  byteLen : Nat
  deriving Repr, DecidableEq

/-- An operation that is checked for overflow. -/
def orOverflow {α : Type} (computing : String) : Option α → Except GgufError α
  | some value => .ok value
  | none => .error (.overflow computing)

def product (computing : String) (dimensions : List Nat) : Except GgufError Nat :=
  dimensions.foldlM (fun total dimension => orOverflow computing (checkedMul total dimension)) 1

def TensorDescriptor.elementCount (tensor : TensorDescriptor) : Except GgufError Nat :=
  product "tensor element count" tensor.dimensions

def alignUp (value alignment : Nat) : Except GgufError Nat :=
  if alignment = 0 ∨ !Word.isPowerOfTwo alignment then
    .error (.invalidHeader s!"alignment {alignment} is not a non-zero power of two")
  else
    orOverflow "alignment" ((checkedAdd value (alignment - 1)).map
      (· &&& complement (alignment - 1)))

open Effect (Concludes)

variable {computing : String}

theorem orOverflow_eq_ok {α : Type} {result : Option α} {value : α} :
    orOverflow computing result = .ok value ↔ result = some value := by
  cases result <;> simp [orOverflow]

theorem concludes_orOverflow {α : Type} {result : Option α} {good : α → Prop}
    (hh : ∀ value, result = some value → good value) :
    Concludes (orOverflow computing result) good fun _ => True := by
  cases result with
  | none => trivial
  | some value => exact hh value rfl

theorem concludes_mul (left right : Nat) :
    Concludes (orOverflow computing (checkedMul left right)) (· = left * right) fun _ => True :=
  concludes_orOverflow fun _ hf => (checkedMul_eq_some.mp hf).1

theorem concludes_add (left right : Nat) :
    Concludes (orOverflow computing (checkedAdd left right)) (· = left + right) fun _ => True :=
  concludes_orOverflow fun _ hf => (checkedAdd_eq_some.mp hf).1

theorem concludes_foldlM_checkedMul (dimensions : List Nat) {start : Nat}
    (hf : start ≤ maximum) : Concludes (dimensions.foldlM
        (fun total dimension => orOverflow computing (checkedMul total dimension)) start)
      (fun total => total = start * dimensions.prod ∧ total ≤ maximum) fun _ => True := by
  induction dimensions generalizing start with
  | nil => exact ⟨by simp, hf⟩
  | cons dimension dimensions ih =>
    apply (concludes_orOverflow fun next hm => checkedMul_eq_some.mp hm).bind
    rintro next ⟨rfl, hs⟩
    apply (ih hs).mono
    rintro total ⟨hsa, hb⟩
    exact ⟨by rw [hsa, prod_cons, mul_assoc], hb⟩

theorem concludes_product (computing : String) (dimensions : List Nat) :
    Concludes (product computing dimensions)
      (fun total => total = dimensions.prod ∧ total ≤ maximum) fun _ => True := by
  apply (concludes_foldlM_checkedMul dimensions (by decide)).mono
  rintro total ⟨hs, hb⟩
  exact ⟨by rw [hs, one_mul], hb⟩

theorem concludes_blockAndBytes (type : GgmlType) :
    Concludes type.blockAndBytes (fun geometry => type.blockAndBytes = .ok geometry) fun _ => True := by
  cases type <;> first | rfl | trivial

/-- The aligned position: the first multiple of the alignment from there on. -/
structure Aligned (value alignment aligned : Nat) : Prop where
  power : Word.isPowerOfTwo alignment
  above : value ≤ aligned
  next : aligned < value + alignment
  multiple : alignment ∣ aligned
  word : aligned ≤ Word.maximum

theorem concludes_alignUp {value alignment : Nat} (hs : alignment ≤ Word.maximum) :
    Concludes (alignUp value alignment) (Aligned value alignment) fun _ => True := by
  unfold alignUp
  split
  · trivial
  rename_i hv
  apply concludes_orOverflow
  intro aligned hr
  have hp : Word.isPowerOfTwo alignment := by simpa using (not_or.mp hv).2
  obtain ⟨sum, ha, rfl⟩ := Option.map_eq_some_iff.mp hr
  obtain ⟨rfl, hf⟩ := Word.checkedAdd_eq_some.mp ha
  rw [Word.and_complement hf hp hs]
  have hpo := Word.isPowerOfTwo_pos hp
  have hpa := Nat.div_add_mod (value + (alignment - 1)) alignment
  have hre := Nat.mod_lt (value + (alignment - 1)) hpo
  rw [mul_comm] at hpa
  exact ⟨hp, by omega, by omega, dvd_mul_left _ _, by omega⟩

end Eredu.Gguf
