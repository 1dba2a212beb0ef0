import Mathlib.Tactic

/-!
# UTF-8 as a self-synchronizing code

Texts are lists of characters and their encodings are lists of bytes. A text can
be read back from its encoding with anything after it, and wherever a first byte
stands in an encoding, a character begins there.
-/

namespace Eredu.Utf8

open List

def encode (text : List Char) : List UInt8 := text.flatMap String.utf8EncodeChar

/-- `char::is_whitespace`. -/
def isWhitespace (character : Char) : Bool :=
  let code := character.toNat
  (9 ≤ code && code ≤ 13) || code == 0x20 || code == 0x85 || code == 0xA0 || code == 0x1680 ||
    (0x2000 ≤ code && code ≤ 0x200A) || code == 0x2028 || code == 0x2029 || code == 0x202F ||
    code == 0x205F || code == 0x3000

def decode (bytes : List UInt8) : Option (List Char) :=
  bytes.toByteArray.utf8Decode?.map Array.toList

@[simp] theorem encode_nil : encode [] = [] := rfl

@[simp] theorem encode_cons (character : Char) (text : List Char) :
    encode (character :: text) = String.utf8EncodeChar character ++ encode text := rfl

@[simp] theorem encode_append (first second : List Char) :
    encode (first ++ second) = encode first ++ encode second :=
  flatMap_append

variable {text : List Char}

@[simp] theorem encode_eq_nil : encode text = [] ↔ text = [] := by
  cases text with
  | nil => simp
  | cons character rest => simp

@[simp] theorem decode_encode (text : List Char) : decode (encode text) = some text := by
  have hb : (encode text).toByteArray = text.utf8Encode := rfl
  rw [decode, hb, utf8Decode?_utf8Encode]
  simp

theorem encode_of_decode {bytes : List UInt8} (hd : decode bytes = some text) :
    encode text = bytes := by
  obtain ⟨characters, hf, rfl⟩ := Option.map_eq_some_iff.mp hd
  have he := @ByteArray.utf8Encode_get_utf8Decode? bytes.toByteArray (by rw [hf]; rfl)
  simp only [hf] at he
  have hl := congrArg (fun array => array.data.toList) he
  simpa [encode, utf8Encode] using hl

/-- A character is determined by any bytes that begin with its encoding. -/
theorem encodeChar_append_inj {left right : Char} {rest rest' : List UInt8}
    (hs : String.utf8EncodeChar left ++ rest = String.utf8EncodeChar right ++ rest') :
    left = right ∧ rest = rest' := by
  have bytes : (String.utf8EncodeChar left).toByteArray ++ rest.toByteArray =
      (String.utf8EncodeChar right).toByteArray ++ rest'.toByteArray := by
    simpa using congrArg toByteArray hs
  have hd := congrArg (fun bytes => ByteArray.utf8DecodeChar? bytes 0) bytes
  simp only [ByteArray.utf8DecodeChar?_utf8EncodeChar_append, Option.some.injEq] at hd
  subst hd
  exact ⟨rfl, append_cancel_left hs⟩

/-- A text whose encoding begins with that of another begins with it. -/
theorem encode_eq_append {text part : List Char} {rest : List UInt8}
    (hs : encode text = encode part ++ rest) :
    ∃ after, text = part ++ after ∧ encode after = rest := by
  induction part generalizing text with
  | nil => exact ⟨text, rfl, by simpa using hs⟩
  | cons character part ih =>
    cases text with
    | nil => simp at hs
    | cons first text =>
      rw [encode_cons, encode_cons, append_assoc] at hs
      obtain ⟨rfl, ho⟩ := encodeChar_append_inj hs
      obtain ⟨after, rfl, he⟩ := ih ho
      exact ⟨after, rfl, he⟩

theorem encode_injective : Function.Injective encode := by
  intro left right hs
  obtain ⟨after, rfl, he⟩ := encode_eq_append (hs.trans (append_nil _).symm)
  rw [encode_eq_nil.mp he, append_nil]

theorem utf8EncodeChar_eq_cons (character : Char) :
    ∃ first others, String.utf8EncodeChar character = first :: others ∧ first.IsUTF8FirstByte ∧
      ∀ byte ∈ others, ¬ byte.IsUTF8FirstByte := by
  cases he : String.utf8EncodeChar character with
  | nil => exact absurd he String.utf8EncodeChar_ne_nil
  | cons first others =>
    refine ⟨first, others, rfl, ?_, fun byte hli => ?_⟩
    · have hl := @UInt8.isUTF8FirstByte_getElem_utf8EncodeChar character 0 (by simp [he])
      simpa [he] using hl
    · obtain ⟨index, hb, rfl⟩ := getElem_of_mem hli
      have hl := @UInt8.isUTF8FirstByte_getElem_utf8EncodeChar character (index + 1)
        (by simpa only [he, length_cons] using Nat.succ_lt_succ hb)
      simpa [he] using hl

theorem encode_first {byte : UInt8} {rest : List UInt8}
    (hs : encode text = byte :: rest) : byte.IsUTF8FirstByte := by
  cases text with
  | nil => cases hs
  | cons character text =>
    obtain ⟨first, others, he, hl, -⟩ := utf8EncodeChar_eq_cons character
    rw [encode_cons, he] at hs
    cases hs
    exact hl

theorem encode_eq_append_first {before rest : List UInt8} {byte : UInt8}
    (hs : encode text = before ++ byte :: rest) (hle : byte.IsUTF8FirstByte) :
    ∃ first second, text = first ++ second ∧ encode first = before ∧ encode second = byte :: rest := by
  induction text generalizing before with
  | nil => simp at hs
  | cons character text ih =>
    obtain ⟨first, others, hed, -, hc⟩ := utf8EncodeChar_eq_cons character
    cases before with
    | nil => exact ⟨[], character :: text, rfl, rfl, hs⟩
    | cons start before =>
      rw [encode_cons, hed, cons_append] at hs
      obtain ⟨rfl, ht⟩ := cons.inj hs
      -- The byte is not among the continuation bytes, so it stands behind them.
      have hb : others.length ≤ before.length := by
        by_contra hsh
        have hi : others[before.length]? = some byte := by
          have hf := congrArg (fun bytes => bytes[before.length]?) ht
          simpa [getElem?_append_left (not_le.mp hsh)] using hf
        exact hc byte (mem_of_getElem? hi) hle
      obtain ⟨middle, rfl⟩ : others <+: before :=
        prefix_of_prefix_length_le (prefix_append others (encode text))
          (ht ▸ prefix_append before _) hb
      have hl : others ++ encode text = others ++ (middle ++ byte :: rest) := by
        simpa using ht
      obtain ⟨left, right, rfl, hen, he⟩ := ih (append_cancel_left hl)
      refine ⟨character :: left, right, rfl, ?_, he⟩
      rw [encode_cons, hed, hen]
      rfl

theorem encode_eq_append_append {text part : List Char} {before rest : List UInt8}
    (hn : part ≠ []) (hs : encode text = before ++ (encode part ++ rest)) :
    ∃ first last, text = first ++ (part ++ last) ∧ encode first = before ∧ encode last = rest := by
  cases hen : encode part with
  | nil => exact absurd (encode_eq_nil.mp hen) hn
  | cons byte others =>
    have hl := hs
    rw [hen, cons_append] at hl
    obtain ⟨first, second, rfl, he, -⟩ := encode_eq_append_first hl (encode_first hen)
    rw [encode_append, he] at hs
    obtain ⟨last, rfl, het⟩ := encode_eq_append (append_cancel_left hs)
    exact ⟨first, last, rfl, he, het⟩

end Eredu.Utf8
