import Eredu.Foundation.Effect
import Eredu.Foundation.Scan
import Eredu.Foundation.Utf8

/-!
# The stop matcher

Decoded text passes the stop matcher before a protocol parser sees it. The
matcher works on bytes: it holds back the longest end of what it has that could
still begin a stop and releases the rest, and once a stop is complete it releases
nothing more. `push` and `finish` follow the source, and the byte positions at
which they cut are shown to be character boundaries.
-/

namespace Eredu.Streaming

open List Scan Utf8 Effect Bool
open Eredu.Utf8 (encode decode)

structure StopMatch where
  visible : String
  matched : Option String
  deriving Repr, DecidableEq

structure StopMatcher where
  stops : List (List UInt8)
  pending : List UInt8
  matched : Bool
  deriving Repr, DecidableEq

abbrev StopM := Effect StopMatcher Empty

def asBytes (text : String) : List UInt8 := encode text.toList

/-- `String::from_utf8(bytes).expect(message)` -/
def expectUtf8 (bytes : List UInt8) (message : String) : StopM String :=
  match decode bytes with
  | some text => pure (String.ofList text)
  | none => abort message

variable (matcher : StopMatcher) (text : String)

namespace StopMatcher

/-- Both loops of `new`: empty stops and repeated ones are left out. -/
def addStop (stops : List (List UInt8)) (stop : String) : List (List UInt8) :=
  if stop.isEmpty || stops.any (· == asBytes stop) then stops else stops ++ [asBytes stop]

def new (profileStops callerStops : List String) : StopMatcher where
  stops := callerStops.foldl addStop (profileStops.foldl addStop [])
  pending := []
  matched := false

def firstMatch : Option (Nat × Nat) :=
  (range matcher.pending.length).findSome? fun position =>
    (matcher.stops.findIdx? fun stop => stop.isPrefixOf (matcher.pending.drop position)).map
      fun index => (position, index)

def longestPossibleStopPrefix : Nat :=
  let maximum := min ((matcher.stops.map length).max?.getD 0) matcher.pending.length
  (((range' 1 maximum).reverse).find? fun length =>
    matcher.stops.any fun stop =>
      (matcher.pending.drop (matcher.pending.length - length)).isPrefixOf stop).getD 0

def push : StopM StopMatch := do
  let matcher ← get
  if matcher.matched then
    return ⟨"", none⟩
  else
    let matcher := { matcher with pending := matcher.pending ++ asBytes text }
    set matcher
    match matcher.firstMatch with
    | some (position, stopIndex) =>
      let visible ← expectUtf8 (matcher.pending.take position)
        "stop matching preserves UTF-8 boundaries"
      let matched ← expectUtf8 (matcher.stops.getD stopIndex []) "stop sequences are valid UTF-8"
      set { matcher with pending := [], matched := true }
      return ⟨visible, some matched⟩
    | none =>
      let visibleLength := matcher.pending.length - matcher.longestPossibleStopPrefix
      let visible ← expectUtf8 (matcher.pending.take visibleLength)
        "stop matching preserves UTF-8 boundaries"
      set { matcher with pending := matcher.pending.drop visibleLength }
      return ⟨visible, none⟩

def finish : StopM String := do
  let matcher ← get
  if matcher.matched then
    return ""
  set { matcher with pending := [] }
  expectUtf8 matcher.pending "stop matching preserves UTF-8 boundaries"

def transcript (pieces : List String) : StopM (String × Option String) := do
  let outputs ← pieces.mapM push
  let rest ← finish
  return (String.join (outputs.map StopMatch.visible) ++ rest, outputs.findSome? StopMatch.matched)

def filtered (profileStops callerStops pieces : List String) :
    Except (Fault Empty) (String × Option String) :=
  ((transcript pieces).outcome (new profileStops callerStops)).1

end StopMatcher

open Scan (patternAt KeepsEnough Cleared deliver Separated CompleteInTime)

section Boundaries

variable {stops : List (List Char)} (nonempty : ∀ stop ∈ stops, stop ≠ [])

theorem encoded_nonempty (nonempty : ∀ stop ∈ stops, stop ≠ []) :
    ∀ stop ∈ stops.map encode, stop ≠ [] := by
  intro stop hl
  obtain ⟨text, hm, rfl⟩ := mem_map.mp hl
  exact fun he => nonempty text hm (encode_eq_nil.mp he)

theorem encode_prefix_encode {part text : List Char} : encode part <+: encode text ↔ part <+: text := by
  constructor
  · rintro ⟨rest, hs⟩
    obtain ⟨after, rfl, -⟩ := encode_eq_append hs.symm
    exact prefix_append part after
  · rintro ⟨rest, rfl⟩
    exact ⟨encode rest, (encode_append part rest).symm⟩

theorem patternAt_encode (text : List Char) :
    patternAt (stops.map encode) (encode text) = (patternAt stops text).map encode := by
  unfold patternAt
  rw [find?_map]
  congr 2
  funext stop
  rw [Function.comp_apply, Bool.eq_iff_iff, isPrefixOf_iff_prefix, isPrefixOf_iff_prefix,
    encode_prefix_encode]

include nonempty

theorem boundary_of_patternAt {text : List Char} {position : Nat} {bytes : List UInt8}
    (hf : patternAt (stops.map encode) ((encode text).drop position) = some bytes) :
    ∃ first second, text = first ++ second ∧ (encode first).length = position := by
  have hb := patternAt_drop_lt (encoded_nonempty nonempty) hf
  obtain ⟨hli, rest, hs⟩ := patternAt_some hf
  obtain ⟨stop, hm, rfl⟩ := mem_map.mp hli
  have hl : encode text = (encode text).take position ++ (encode stop ++ rest) := by
    rw [hs, take_append_drop]
  obtain ⟨first, last, rfl, he, -⟩ := encode_eq_append_append (nonempty stop hm) hl
  refine ⟨first, stop ++ last, rfl, ?_⟩
  rw [he, length_take, min_eq_left (le_of_lt hb)]

theorem firstMatch_encode (text : List Char) : Scan.firstMatch (stops.map encode) (encode text) =
      (Scan.firstMatch stops text).map fun occurrence =>
        ((encode (text.take occurrence.1)).length, encode occurrence.2) := by
  have he := encoded_nonempty nonempty
  have hd : ∀ first second : List Char,
      (encode (first ++ second)).drop (encode first).length = encode second := by
    intro first second
    rw [encode_append, drop_left]
  -- A match in the bytes at a character boundary is one in the text.
  have hl : ∀ position bytes,
      patternAt (stops.map encode) ((encode text).drop position) = some bytes →
      ∃ first second stop, text = first ++ second ∧ (encode first).length = position ∧
        patternAt stops second = some stop := by
    intro position bytes hf
    obtain ⟨first, second, rfl, hs⟩ := boundary_of_patternAt nonempty hf
    rw [← hs, hd, patternAt_encode] at hf
    obtain ⟨stop, hh, -⟩ := Option.map_eq_some_iff.mp hf
    exact ⟨first, second, stop, rfl, hs, hh⟩
  cases hm : Scan.firstMatch stops text with
  | none =>
    rw [Option.map_none, firstMatch_eq_none he]
    intro position
    by_contra hf
    obtain ⟨bytes, hf⟩ := Option.ne_none_iff_exists'.mp hf
    obtain ⟨first, second, stop, rfl, -, hh⟩ := hl position bytes hf
    have hc := (firstMatch_eq_none nonempty).mp hm first.length
    rw [drop_left, hh] at hc
    cases hc
  | some occurrence =>
    obtain ⟨position, stop⟩ := occurrence
    obtain ⟨hh, hea⟩ := (firstMatch_eq_some nonempty).mp hm
    rw [Option.map_some, firstMatch_eq_some he]
    refine ⟨?_, fun other hle => ?_⟩
    · have cut := hd (text.take position) (text.drop position)
      rw [take_append_drop] at cut
      rw [cut, patternAt_encode, hh, Option.map_some]
    · by_contra hf
      obtain ⟨bytes, hf⟩ := Option.ne_none_iff_exists'.mp hf
      obtain ⟨first, second, sooner, rfl, rfl, ht⟩ := hl other bytes hf
      -- The boundary lies before the match in the text as well.
      have hb : first.length < position := by
        by_contra hbe
        have hi : (first ++ second).take position <+: first :=
          prefix_of_prefix_length_le (List.take_prefix _ _) (prefix_append _ _)
            (by rw [length_take]; omega)
        exact absurd hle (not_lt.mpr (encode_prefix_encode.mpr hi).length_le)
      have hc := hea first.length hb
      rw [drop_left, ht] at hc
      cases hc

end Boundaries

theorem StopMatcher.firstMatch_eq :
    Scan.firstMatch matcher.stops matcher.pending =
      matcher.firstMatch.map fun occurrence => (occurrence.1, matcher.stops.getD occurrence.2 []) := by
  unfold Scan.firstMatch StopMatcher.firstMatch
  rw [map_findSome?]
  congr 1
  funext position
  rw [Function.comp_apply, Option.map_map]
  unfold patternAt
  cases hf : matcher.stops.findIdx? fun stop => stop.isPrefixOf (matcher.pending.drop position) with
  | none =>
    rw [findIdx?_eq_none_iff] at hf
    rw [find?_eq_none.mpr fun stop hl => not_eq_true _ ▸ hf stop hl]
    rfl
  | some index =>
    obtain ⟨hb, hh, he⟩ := findIdx?_eq_some_iff_getElem.mp hf
    have hc : matcher.stops.find? (fun stop =>
        stop.isPrefixOf (matcher.pending.drop position)) = some matcher.stops[index] := by
      rw [find?_eq_some_iff_getElem]
      exact ⟨hh, index, hb, rfl, fun other hle => by
        rw [eq_false_iff.mpr (he other hle)]
        rfl⟩
    rw [hc]
    simp [getElem?_eq_getElem hb]

theorem StopMatcher.longestPossibleStopPrefix_spec :
    KeepsEnough matcher.stops matcher.pending matcher.longestPossibleStopPrefix ∧
      (matcher.longestPossibleStopPrefix = 0 ∨ ∃ stop ∈ matcher.stops,
        matcher.pending.drop (matcher.pending.length - matcher.longestPossibleStopPrefix) <+: stop) := by
  simp only [StopMatcher.longestPossibleStopPrefix]
  obtain ⟨le, hv, hla⟩ := find?_downwards_spec
    (fun length => matcher.stops.any fun stop =>
      (matcher.pending.drop (matcher.pending.length - length)).isPrefixOf stop)
    (min ((matcher.stops.map length).max?.getD 0) matcher.pending.length)
  refine ⟨⟨le.trans (min_le_right _ _), fun position hsh stop hl hs => ?_⟩, ?_⟩
  · -- An end that begins a stop is no longer than the longest stop.
    have hf := hs.length_le
    rw [length_drop] at hf
    have hlo := le_max?_getD_of_mem (k := 0) (mem_map_of_mem (f := length) hl)
    have hk := hla (matcher.pending.length - position) (by omega) (by
      rw [show matcher.pending.length - (matcher.pending.length - position) = position by omega,
        any_eq_true]
      exact ⟨stop, hl, isPrefixOf_iff_prefix.mpr hs⟩)
    omega
  · rcases hv with hz | ha
    · exact .inl hz
    · obtain ⟨stop, hl, hs⟩ := any_eq_true.mp ha
      exact .inr ⟨stop, hl, isPrefixOf_iff_prefix.mp hs⟩

theorem outcome_expectUtf8 (text : List Char) (message : String) (matcher : StopMatcher) :
    (expectUtf8 (encode text) message).outcome matcher = (.ok (String.ofList text), matcher) := by
  rw [expectUtf8, decode_encode]
  rfl

variable {piece : String}

section Push

variable {stops : List (List Char)}

variable (stops)

def holding (pending : List Char) : StopMatcher where
  stops := stops.map encode
  pending := encode pending
  matched := false

def stopped : StopMatcher where
  stops := stops.map encode
  pending := []
  matched := true

variable {stops}

theorem outcome_push_stopped :
    (StopMatcher.push text).outcome (stopped stops) = (.ok ⟨"", none⟩, stopped stops) := rfl

variable (pending : List Char)

/-- What is held back ends in whole characters. -/
theorem kept_boundary : ∃ first second, pending = first ++ second ∧
      (encode pending).length - (holding stops pending).longestPossibleStopPrefix =
        (encode first).length ∧ KeepsEnough stops pending second.length := by
  obtain ⟨⟨le, hlo⟩, hv⟩ := (holding stops pending).longestPossibleStopPrefix_spec
  generalize (holding stops pending).longestPossibleStopPrefix = kept at le hlo hv ⊢
  obtain ⟨first, second, rfl, hsi⟩ : ∃ first second, pending = first ++ second ∧
      (encode pending).length - kept = (encode first).length := by
    rcases hv with rfl | ⟨stop, hl, hs⟩
    · exact ⟨pending, [], by simp, by simp⟩
    · obtain ⟨text, hm, rfl⟩ := mem_map.mp hl
      -- The kept end begins with the first byte of a stop, so a character begins there.
      cases he : (encode pending).drop ((encode pending).length - kept) with
      | nil =>
        refine ⟨pending, [], by simp, ?_⟩
        have hsi := congrArg length he
        simp only [length_drop, length_nil] at hsi
        omega
      | cons byte rest =>
        have hle : byte.IsUTF8FirstByte := by
          obtain ⟨after, hsa⟩ := hs
          exact encode_first (hsa.symm.trans (by
            show (encode pending).drop ((encode pending).length - kept) ++ after = _
            rw [he, cons_append]))
        have hld : encode pending =
            (encode pending).take ((encode pending).length - kept) ++ byte :: rest := by
          rw [← he, take_append_drop]
        obtain ⟨first, second, hsp, hen, -⟩ := encode_eq_append_first hld hle
        refine ⟨first, second, hsp, ?_⟩
        rw [hen, length_take]
        omega
  refine ⟨first, second, rfl, hsi, by simp, fun position hsh stop hl hs => ?_⟩
  have hi : position < first.length := by
    rw [length_append] at hsh
    omega
  have cut : (encode (first ++ second)).drop (encode (first.take position)).length =
      encode ((first ++ second).drop position) := by
    rw [drop_append_of_le_length (le_of_lt hi)]
    conv_lhs => rw [← take_append_drop position first]
    rw [append_assoc, encode_append, encode_append, ← encode_append,
      take_append_drop, drop_left]
  have hb : (encode (first.take position)).length < (encode first).length := by
    have rest : encode (first.drop position) ≠ [] := by
      rw [Ne, encode_eq_nil, drop_eq_nil_iff]
      omega
    have hss := congrArg (fun text => (encode text).length) (take_append_drop position first)
    simp only [encode_append, length_append] at hss
    have hp := length_pos_iff.mpr rest
    omega
  apply hlo (encode (first.take position)).length _ (encode stop) (mem_map_of_mem hl)
  · show (encode (first ++ second)).drop _ <+: _
    rw [cut]
    exact encode_prefix_encode.mpr hs
  · show _ < (encode (first ++ second)).length
    change kept ≤ (encode (first ++ second)).length at le
    omega

theorem encode_append_asBytes (piece : String) :
    encode pending ++ asBytes piece = encode (pending ++ piece.toList) :=
  (encode_append pending piece.toList).symm

theorem outcome_push_holding (piece : String) :
    (StopMatcher.push piece).outcome (holding stops pending) =
      outcome (match (holding stops (pending ++ piece.toList)).firstMatch with
        | some (position, stopIndex) => do
          let visible ← expectUtf8 ((encode (pending ++ piece.toList)).take position)
            "stop matching preserves UTF-8 boundaries"
          let matched ← expectUtf8 ((stops.map encode).getD stopIndex [])
            "stop sequences are valid UTF-8"
          set (stopped stops)
          return ⟨visible, some matched⟩
        | none => do
          let visibleLength := (encode (pending ++ piece.toList)).length -
            (holding stops (pending ++ piece.toList)).longestPossibleStopPrefix
          let visible ← expectUtf8 ((encode (pending ++ piece.toList)).take visibleLength)
            "stop matching preserves UTF-8 boundaries"
          set (⟨stops.map encode, (encode (pending ++ piece.toList)).drop visibleLength, false⟩ :
            StopMatcher)
          return ⟨visible, none⟩) (holding stops (pending ++ piece.toList)) := by
  unfold holding
  rw [← encode_append_asBytes]
  rfl

theorem encode_take_length (text : List Char) (position : Nat) :
    (encode text).take (encode (text.take position)).length = encode (text.take position) := by
  conv_lhs => rw [← take_append_drop position text, encode_append]
  rw [take_append_drop, take_left]

section

variable (nonempty : ∀ stop ∈ stops, stop ≠ [])
include nonempty

theorem firstMatch_holding (pending : List Char) :
    ((holding stops pending).firstMatch.map fun occurrence =>
        (occurrence.1, (stops.map encode).getD occurrence.2 [])) =
      (Scan.firstMatch stops pending).map fun occurrence =>
        ((encode (pending.take occurrence.1)).length, encode occurrence.2) := by
  rw [← firstMatch_encode nonempty]
  exact (holding stops pending).firstMatch_eq.symm

theorem outcome_push_matched {pending : List Char} {position : Nat} {stop : List Char}
    (hf : Scan.firstMatch stops (pending ++ piece.toList) = some (position, stop)) :
    (StopMatcher.push piece).outcome (holding stops pending) =
      (.ok ⟨String.ofList ((pending ++ piece.toList).take position), some (String.ofList stop)⟩,
        stopped stops) := by
  have hl := firstMatch_holding nonempty (pending ++ piece.toList)
  rw [hf, Option.map_some] at hl
  obtain ⟨⟨bytePosition, index⟩, hh, hsa⟩ := Option.map_eq_some_iff.mp hl
  obtain ⟨rfl, hs⟩ := Prod.mk.inj hsa
  simp only [outcome_push_holding, hh, encode_take_length, hs, outcome_bind,
    outcome_expectUtf8, outcome_set, outcome_pure]

theorem outcome_push_unmatched {shown pending : List Char} (hc : Cleared stops shown pending)
    (hu : Scan.firstMatch stops (pending ++ piece.toList) = none) :
    ∃ first second, pending ++ piece.toList = first ++ second ∧
      Cleared stops (shown ++ first) second ∧
      (StopMatcher.push piece).outcome (holding stops pending) =
        (.ok ⟨String.ofList first, none⟩, holding stops second) := by
  have hl := firstMatch_holding nonempty (pending ++ piece.toList)
  rw [hu, Option.map_none, Option.map_eq_none_iff] at hl
  obtain ⟨first, second, hs, hsi, hke⟩ := @kept_boundary stops (pending ++ piece.toList)
  refine ⟨first, second, hs, ?_, ?_⟩
  · have he := hc.extend nonempty hu hke
    rw [hs, show (first ++ second).length - second.length = first.length by simp, take_left,
      drop_left] at he
    exact he
  · have hv : (encode (first ++ second)).take (encode first).length = encode first := by
      rw [encode_append, take_left]
    have hk : (encode (first ++ second)).drop (encode first).length = encode second := by
      rw [encode_append, drop_left]
    simp only [outcome_push_holding, hl, hsi, outcome_bind]
    simp only [hs, hv, hk, outcome_expectUtf8]
    rfl

end

theorem outcome_finish : StopMatcher.finish.outcome (holding stops pending) =
      (.ok (String.ofList pending), holding stops []) :=
  outcome_expectUtf8 pending _ _

theorem outcome_finish_stopped :
    StopMatcher.finish.outcome (stopped stops) = (.ok "", stopped stops) := rfl

end Push

section Transcript

variable {stops : List (List Char)}

def reported (delivered : List Char × Option (List Char)) : String × Option String :=
  (String.ofList delivered.1, delivered.2.map String.ofList)

open StopMatcher (push transcript)

theorem transcript_cons (piece : String) (pieces : List String) :
    transcript (piece :: pieces) = do
      let output ← push piece
      let (visible, matched) ← transcript pieces
      return (output.visible ++ visible, output.matched.or matched) := by
  have hf : ∀ (output : StopMatch) (outputs : List StopMatch),
      (output :: outputs).findSome? StopMatch.matched =
        output.matched.or (outputs.findSome? StopMatch.matched) := by
    intro output outputs
    rw [findSome?_cons]
    cases output.matched <;> rfl
  simp only [transcript, mapM_cons, bind_assoc, pure_bind, map_cons, String.join_cons,
    String.append_assoc, hf]

theorem outcome_transcript_cons {pieces : List String} {matcher after : StopMatcher}
    {output : StopMatch} (hp : (push piece).outcome matcher = (.ok output, after))
    {visible : String} {matched : Option String}
    (hr : ((transcript pieces).outcome after).1 = .ok (visible, matched)) :
    ((transcript (piece :: pieces)).outcome matcher).1 =
      .ok (output.visible ++ visible, output.matched.or matched) := by
  rw [transcript_cons, outcome_bind, hp]
  dsimp only
  rw [outcome_bind]
  generalize (transcript pieces).outcome after = result at hr ⊢
  obtain ⟨result, last⟩ := result
  subst hr
  rfl

theorem outcome_transcript_stopped (pieces : List String) :
    ((transcript pieces).outcome (stopped stops)).1 = .ok ("", none) := by
  induction pieces with
  | nil => rfl
  | cons piece pieces ih =>
    rw [outcome_transcript_cons (outcome_push_stopped piece) ih]
    rfl

/-- From a state in which nothing shown can take part in a stop, the matcher delivers what the
search delivers on the text it consumes. -/
theorem outcome_transcript (nonempty : ∀ stop ∈ stops, stop ≠ []) {shown pending : List Char}
    (hc : Cleared stops shown pending) (pieces : List String) : ∃ visible matched,
      ((transcript pieces).outcome (holding stops pending)).1 = .ok (visible, matched) ∧
      (String.ofList shown ++ visible, matched) = reported (deliver stops
          (consumed stops (shown ++ pending) (pieces.map String.toList))) := by
  induction pieces generalizing shown pending with
  | nil =>
    refine ⟨String.ofList pending, none, ?_, ?_⟩
    · have hfi := @outcome_finish stops pending
      simp only [transcript, mapM_nil, pure_bind, outcome_bind, hfi]
      rfl
    · simp only [map_nil, consumed, deliver, hc.clean, reported, String.ofList_append,
        Option.map_none]
  | cons piece pieces ih =>
    have hs := hc.firstMatch_append nonempty piece.toList
    rw [map_cons, consumed]
    cases hf : Scan.firstMatch stops (pending ++ piece.toList) with
    | some occurrence =>
      rw [hf, Option.map_some] at hs
      refine ⟨_, _, outcome_transcript_cons (outcome_push_matched nonempty hf)
        (outcome_transcript_stopped pieces), ?_⟩
      rw [hs, Option.isSome_some, if_pos rfl, deliver, hs]
      simp only [reported, append_assoc, take_length_add_append, String.ofList_append,
        String.append_empty, Option.map_some, Option.some_or]
    | none =>
      rw [hf, Option.map_none] at hs
      obtain ⟨first, second, hsp, he, hp⟩ := outcome_push_unmatched nonempty hc hf
      obtain ⟨visible, matched, hr, hsa⟩ := ih he
      refine ⟨_, _, outcome_transcript_cons hp hr, ?_⟩
      rw [hs, Option.isSome_none, if_neg Bool.false_ne_true, append_assoc, hsp,
        ← append_assoc, ← hsa]
      simp only [String.ofList_append, String.append_assoc, Option.none_or]

end Transcript

def textsOf (stops : List String) : List (List Char) := (stops.filter (!·.isEmpty)).map String.toList

variable (profileStops callerStops : List String)

def stopTexts : List (List Char) :=
  textsOf (profileStops ++ callerStops)

theorem mem_textsOf {stops : List String} {text : List Char} :
    text ∈ textsOf stops ↔ String.ofList text ∈ stops ∧ text ≠ [] := by
  unfold textsOf
  simp only [mem_map, mem_filter, not_eq_true', ← not_eq_true, String.isEmpty_iff]
  constructor
  · rintro ⟨stop, ⟨hl, nonempty⟩, rfl⟩
    rw [String.ofList_toList]
    exact ⟨hl, fun he => nonempty (String.toList_eq_nil_iff.mp he)⟩
  · rintro ⟨hl, nonempty⟩
    refine ⟨String.ofList text, ⟨hl, fun he => nonempty ?_⟩, String.toList_ofList⟩
    rw [← String.toList_ofList (l := text), he, String.toList_empty]

theorem stopTexts_nonempty : ∀ stop ∈ stopTexts profileStops callerStops, stop ≠ [] :=
  fun _ hl => (mem_textsOf.mp hl).2

theorem addStop_encoded (kept : List (List Char)) (stop : String) :
    StopMatcher.addStop (kept.map encode) stop =
      if stop.isEmpty ∨ stop.toList ∈ kept then kept.map encode
      else (kept ++ [stop.toList]).map encode := by
  have hr : (kept.map encode).any (· == asBytes stop) ↔ stop.toList ∈ kept := by
    rw [any_map, any_eq_true]
    constructor
    · rintro ⟨text, hl, hs⟩
      exact encode_injective (beq_iff_eq.mp hs) ▸ hl
    · exact fun hl => ⟨stop.toList, hl, beq_self_eq_true _⟩
  unfold StopMatcher.addStop
  simp only [or_eq_true, hr, map_append]
  rfl

theorem foldl_addStop (added : List String) (kept : List (List Char)) :
    ∃ stops, added.foldl StopMatcher.addStop (kept.map encode) = stops.map encode ∧
      Scan.SameSearch stops (kept ++ textsOf added) := by
  induction added generalizing kept with
  | nil => exact ⟨kept, rfl, by simpa [textsOf] using Scan.SameSearch.refl kept⟩
  | cons stop added ih =>
    rw [foldl_cons, addStop_encoded]
    by_cases he : stop.isEmpty
    · rw [if_pos (.inl he)]
      have hsk : textsOf (stop :: added) = textsOf added := by
        simp [textsOf, he]
      rw [hsk]
      exact ih kept
    · have hc : textsOf (stop :: added) = stop.toList :: textsOf added := by
        simp [textsOf, he]
      rw [hc]
      by_cases hl : stop.toList ∈ kept
      · rw [if_pos (.inr hl)]
        obtain ⟨stops, hf, hs⟩ := ih kept
        exact ⟨stops, hf, hs.trans (sameSearch_repeated hl (textsOf added))⟩
      · rw [if_neg (not_or.mpr ⟨he, hl⟩)]
        obtain ⟨stops, hf, hs⟩ := ih (kept ++ [stop.toList])
        rw [← append_cons] at hs
        exact ⟨stops, hf, hs⟩

/-- Repeated stops make no difference to the search. -/
theorem new_eq_holding : ∃ stops, StopMatcher.new profileStops callerStops = holding stops [] ∧
      Scan.SameSearch stops (stopTexts profileStops callerStops) := by
  obtain ⟨stops, hf, hs⟩ := foldl_addStop (profileStops ++ callerStops) []
  refine ⟨stops, ?_, hs⟩
  rw [map_nil, foldl_append] at hf
  rw [StopMatcher.new, hf]
  rfl

theorem filtered_eq (pieces : List String) : StopMatcher.filtered profileStops callerStops pieces =
      .ok (reported (deliver (stopTexts profileStops callerStops)
        (consumed (stopTexts profileStops callerStops) [] (pieces.map String.toList)))) := by
  obtain ⟨stops, hc, hs⟩ := new_eq_holding profileStops callerStops
  have nonempty : ∀ stop ∈ stops, stop ≠ [] := fun stop hl =>
    stopTexts_nonempty profileStops callerStops stop ((hs.mem stop).mp hl)
  obtain ⟨visible, matched, ran, hd⟩ := outcome_transcript nonempty (cleared_nil nonempty) pieces
  rw [nil_append] at hd
  rw [StopMatcher.filtered, hc, ran, ← hs.deliver_eq, ← hs.consumed_eq, ← hd]
  simp

theorem reported_injective : Function.Injective reported := by
  rintro ⟨visible, matched⟩ ⟨visible', matched'⟩ hse
  obtain ⟨hs, hsa⟩ := Prod.mk.inj hse
  exact Prod.ext (String.ofList_inj.mp hs)
    (Option.map_injective (fun _ _ ht => String.ofList_inj.mp ht) hsa)

theorem flatten_map_toList (pieces : List String) :
    (pieces.map String.toList).flatten = (String.join pieces).toList := by
  rw [String.toList_join, flatMap]

theorem consumed_whole (stops : List (List Char)) (text : List Char) :
    consumed stops [] [text] = text := by
  simp [consumed]

/-- Cutting a text makes no difference exactly if its leftmost stop is complete when the search
ends. -/
theorem filtered_pieces_iff (pieces : List String) :
    StopMatcher.filtered profileStops callerStops pieces =
        StopMatcher.filtered profileStops callerStops [String.join pieces] ↔
      CompleteInTime (stopTexts profileStops callerStops) (pieces.map String.toList) := by
  rw [← deliver_consumed_iff (stopTexts_nonempty profileStops callerStops), filtered_eq,
    filtered_eq, map_singleton, consumed_whole, ← flatten_map_toList]
  constructor
  · intro hs
    exact reported_injective (Except.ok.inj hs)
  · intro hs
    rw [hs]

theorem filtered_independent_iff : (∀ pieces, StopMatcher.filtered profileStops callerStops pieces =
        StopMatcher.filtered profileStops callerStops [String.join pieces]) ↔
      Separated (stopTexts profileStops callerStops) := by
  have nonempty := stopTexts_nonempty profileStops callerStops
  rw [← deliver_consumed_iff_separated nonempty]
  constructor
  · intro hi pieces
    have hs := (filtered_pieces_iff _ _ _).mp (hi (pieces.map String.ofList))
    rw [map_map, show String.toList ∘ String.ofList = id from funext fun _ => String.toList_ofList,
      map_id] at hs
    exact (deliver_consumed_iff nonempty pieces).mpr hs
  · intro hi pieces
    rw [filtered_pieces_iff]
    exact (deliver_consumed_iff nonempty _).mp (hi _)

/-- Whatever the stops and the pieces: the conversions from bytes succeed, what is visible is a part
of the text without a stop, a stop that matched follows it and ends the output, and without a match
the whole text is visible. The way the text is cut makes no difference exactly if the leftmost stop
of the text is complete when any stop is; and it never does exactly if no stop inside a stop ends
before it. -/
theorem stops_never_leak (profileStops callerStops : List String) : (∀ pieces, ∃ visible matched,
      StopMatcher.filtered profileStops callerStops pieces = .ok (visible, matched) ∧
      visible.toList <+: (String.join pieces).toList ∧
      (∀ stop ∈ profileStops ++ callerStops, stop ≠ "" → ¬ stop.toList <:+: visible.toList) ∧
      (∀ stop, matched = some stop → stop ∈ profileStops ++ callerStops ∧
        (visible ++ stop).toList <+: (String.join pieces).toList ∧
        ∀ later, StopMatcher.filtered profileStops callerStops (pieces ++ later) =
          .ok (visible, matched)) ∧ (matched = none → visible = String.join pieces)) ∧
    (∀ pieces, StopMatcher.filtered profileStops callerStops pieces =
        StopMatcher.filtered profileStops callerStops [String.join pieces] ↔
      CompleteInTime (stopTexts profileStops callerStops) (pieces.map String.toList)) ∧
    ((∀ pieces, StopMatcher.filtered profileStops callerStops pieces =
        StopMatcher.filtered profileStops callerStops [String.join pieces]) ↔
      Separated (stopTexts profileStops callerStops)) := by
  refine ⟨fun pieces => ?_, filtered_pieces_iff profileStops callerStops,
    filtered_independent_iff profileStops callerStops⟩
  have nonempty := stopTexts_nonempty profileStops callerStops
  generalize hs : stopTexts profileStops callerStops = stops at nonempty
  cases hd : deliver stops (consumed stops [] (pieces.map String.toList)) with
  | mk visible matched =>
    obtain ⟨hc, hp, ha, hco⟩ := deliver_spec nonempty visible matched hd
    have hse := consumed_prefix stops [] (pieces.map String.toList)
    rw [nil_append, flatten_map_toList] at hse
    refine ⟨String.ofList visible, matched.map String.ofList, ?_, ?_, ?_, ?_, ?_⟩
    · rw [filtered_eq, hs, hd]
      rfl
    · rw [String.toList_ofList]
      exact hp.trans hse
    · intro stop hl hn
      rw [String.toList_ofList]
      apply hc
      rw [← hs]
      exact mem_textsOf.mpr ⟨by rwa [String.ofList_toList],
        fun hem => hn (String.toList_eq_nil_iff.mp hem)⟩
    · intro stop hfo
      obtain ⟨text, rfl, rfl⟩ := Option.map_eq_some_iff.mp hfo
      obtain ⟨hl, hf⟩ := ha text rfl
      rw [← hs] at hl
      refine ⟨(mem_textsOf.mp hl).1, ?_, fun later => ?_⟩
      · rw [String.toList_append, String.toList_ofList, String.toList_ofList]
        exact hf.trans hse
      · -- The search ended with the piece that completed the stop.
        have he := consumed_append stops (later.map String.toList)
          (cleared_nil nonempty).clean (firstMatch_of_deliver hd)
        rw [nil_append] at he
        rw [filtered_eq, hs, map_append, he, hd]
        rfl
    · intro hu
      rw [Option.map_eq_none_iff] at hu
      have hc := clean_of_deliver (hu ▸ hd)
      rw [hco hu, consumed_of_clean stops hc, nil_append, flatten_map_toList, String.ofList_toList]

/-- The order in which the pieces come decides between two stops. -/
theorem cut_changes_matched_stop :
    StopMatcher.filtered [] ["abcd", "c"] ["abc", "d"] = .ok ("ab", some "c") ∧
      StopMatcher.filtered [] ["abcd", "c"] ["abcd"] = .ok ("", some "abcd") := by
  decide +kernel

end Eredu.Streaming
