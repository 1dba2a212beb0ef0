import Mathlib.Tactic

/-!
# Incremental search for several patterns

A text arrives in pieces and is searched for the leftmost occurrence of a
pattern, where the first listed pattern wins at each position. What can no longer
take part in an occurrence may be let go of, and the search goes on in the rest.

Searching piece by piece finds the leftmost occurrence in the first prefix of
the text that has one. That is the leftmost occurrence in the whole text whenever
every pattern inside a pattern ends where it ends (`Separated`).
-/

namespace Eredu.Scan

open List Nat Option Prod Bool

variable {α : Type} [DecidableEq α] (patterns : List (List α)) (text : List α)

def patternAt : Option (List α) :=
  patterns.find? fun pattern => pattern.isPrefixOf text

def firstMatch : Option (Nat × List α) :=
  (range text.length).findSome? fun position =>
    (patternAt patterns (text.drop position)).map fun pattern => (position, pattern)

/-- The text up to the leftmost occurrence, and the pattern found there. -/
def deliver : List α × Option (List α) :=
  match firstMatch patterns text with
  | some (position, pattern) => (text.take position, some pattern)
  | none => (text, none)

section Occurrences

variable {patterns : List (List α)} {text : List α} {pattern : List α} {visible : List α}

theorem firstMatch_of_deliver
    (hd : deliver patterns text = (visible, some pattern)) : firstMatch patterns text ≠ none := by
  intro hc
  simp [deliver, hc] at hd

theorem clean_of_deliver (hd : deliver patterns text = (visible, none)) :
    firstMatch patterns text = none := by
  unfold deliver at hd
  split at hd
  · cases hd
  · assumption

theorem patternAt_some (hf : patternAt patterns text = some pattern) :
    pattern ∈ patterns ∧ pattern <+: text := by
  have hs := find?_some hf
  exact ⟨mem_of_find?_eq_some hf, isPrefixOf_iff_prefix.mp hs⟩

theorem patternAt_none :
    patternAt patterns text = none ↔ ∀ pattern ∈ patterns, ¬ pattern <+: text := by
  simp [patternAt]

theorem patternAt_of_initial {part : List α} (hf : patternAt patterns text = some pattern)
    (hi : pattern <+: part) (hw : part <+: text) : patternAt patterns part = some pattern := by
  unfold patternAt at hf ⊢
  rw [find?_eq_some_iff_append] at hf ⊢
  obtain ⟨-, before, after, hsp, he⟩ := hf
  refine ⟨ isPrefixOf_iff_prefix.mpr hi, before, after, hsp, fun other hl => ?_⟩
  have hm := he other hl
  simp only [not_eq_true', ← not_eq_true, isPrefixOf_iff_prefix] at hm ⊢
  exact fun hs => hm (hs.trans hw)

theorem patternAt_self (hf : patternAt patterns text = some pattern) :
    patternAt patterns pattern = some pattern :=
  patternAt_of_initial hf (prefix_refl _) (patternAt_some hf).2

variable (nonempty : ∀ pattern ∈ patterns, pattern ≠ [])
include nonempty

theorem patternAt_drop_lt {position : Nat}
    (hf : patternAt patterns (text.drop position) = some pattern) : position < text.length := by
  by_contra hb
  rw [drop_eq_nil_of_le (not_lt.mp hb)] at hf
  obtain ⟨hl, hs⟩ := patternAt_some hf
  exact nonempty pattern hl (prefix_nil.mp hs)

theorem firstMatch_eq_some {position : Nat} : firstMatch patterns text = some (position, pattern) ↔
      patternAt patterns (text.drop position) = some pattern ∧
        ∀ earlier < position, patternAt patterns (text.drop earlier) = none := by
  unfold firstMatch
  rw [findSome?_eq_some_iff]
  constructor
  · rintro ⟨before, found, after, hs, hm, earlier⟩
    obtain ⟨pattern', hh, same⟩ := map_eq_some_iff.mp hm
    cases same
    -- The positions before the one found are those listed before it.
    have hi : before.length = position := by
      have hat := congrArg (fun positions => positions[before.length]?) hs
      have hb : before.length < text.length := by
        have hse := congrArg length hs
        simp at hse
        omega
      simpa [getElem?_range hb] using hat
    refine ⟨hh, fun other hle => ?_⟩
    have hl : other ∈ before := by
      have ha := congrArg (fun positions => positions[other]?) hs
      have hb := patternAt_drop_lt nonempty hh
      rw [getElem?_append_left (by omega), getElem?_range (by omega)] at ha
      exact mem_of_getElem? ha.symm
    exact map_eq_none_iff.mp (earlier other hl)
  · rintro ⟨hh, earlier⟩
    have hb := patternAt_drop_lt nonempty hh
    refine ⟨range position, position, range' (position + 1) (text.length - position - 1),
      ?_, by simp [hh], fun other hl => ?_⟩
    · rw [range_eq_range', range_eq_range', ← range'_succ]
      have hsi : text.length = position + (text.length - position - 1 + 1) := by omega
      conv_lhs => rw [hsi]
      rw [← range'_append_1, zero_add]
    · rw [earlier other (mem_range.mp hl)]
      rfl

theorem firstMatch_eq_none :
    firstMatch patterns text = none ↔ ∀ position, patternAt patterns (text.drop position) = none := by
  unfold firstMatch
  simp only [findSome?_eq_none_iff, mem_range, map_eq_none_iff]
  constructor
  · intro hc position
    by_contra hf
    obtain ⟨pattern, hf⟩ := ne_none_iff_exists'.mp hf
    exact some_ne_none _ (hf.symm.trans (hc position (patternAt_drop_lt nonempty hf)))
  · exact fun hc position _ => hc position

theorem not_infix_of_firstMatch_eq_none (hc : firstMatch patterns text = none)
    (hl : pattern ∈ patterns) : ¬ pattern <:+: text := by
  rintro ⟨before, after, rfl⟩
  have hm := (firstMatch_eq_none nonempty).mp hc before.length
  rw [append_assoc, drop_left] at hm
  exact patternAt_none.mp hm pattern hl (prefix_append pattern after)

theorem deliver_spec (visible : List α) (found : Option (List α))
    (hd : deliver patterns text = (visible, found)) :
    (∀ pattern ∈ patterns, ¬ pattern <:+: visible) ∧ visible <+: text ∧
      (∀ pattern, found = some pattern → pattern ∈ patterns ∧ visible ++ pattern <+: text) ∧
      (found = none → visible = text) := by
  unfold deliver at hd
  cases hm : firstMatch patterns text with
  | none =>
    rw [hm] at hd
    cases hd
    exact ⟨fun pattern hl => not_infix_of_firstMatch_eq_none nonempty hm hl,
      prefix_refl _, by simp, fun _ => rfl⟩
  | some occurrence =>
    obtain ⟨position, pattern⟩ := occurrence
    rw [hm] at hd
    cases hd
    obtain ⟨hh, he⟩ := (firstMatch_eq_some nonempty).mp hm
    obtain ⟨hl, hst⟩ := patternAt_some hh
    refine ⟨fun other hl' hin => ?_, take_prefix _ _, fun other same => ?_, by simp⟩
    · obtain ⟨before, after, hs⟩ := hin
      have hsi := congrArg length hs
      have hp := length_pos_iff.mpr (nonempty other hl')
      simp only [length_append, length_take] at hsi
      -- The occurrence lies before the leftmost one.
      have hmi := he before.length (by omega)
      apply patternAt_none.mp hmi other hl'
      have hi : other <+: (text.take position).drop before.length := by
        rw [← hs, append_assoc, drop_left]
        exact prefix_append other after
      rw [drop_take] at hi
      exact hi.trans ( take_prefix _ _)
    · cases same
      refine ⟨hl, ?_⟩
      obtain ⟨rest, hs⟩ := hst
      exact ⟨rest, by rw [append_assoc, hs, take_append_drop]⟩

end Occurrences

theorem find?_downwards_spec (accept : Nat → Bool) (bound : Nat) :
    let found := ((range' 1 bound).reverse.find? accept).getD 0
    found ≤ bound ∧ (found = 0 ∨ accept found) ∧
      ∀ number ≤ bound, accept number → number ≤ found := by
  induction bound with
  | zero => simp
  | succ bound ih =>
    rw [range'_1_concat, reverse_concat, find?_cons, add_comm 1 bound]
    cases hac : accept (bound + 1) with
    | true => exact ⟨le_refl _, .inr hac, fun number le _ => le⟩
    | false =>
      obtain ⟨le, hv, hl⟩ := ih
      refine ⟨le_succ_of_le le, hv, fun number hb ha => ?_⟩
      rcases le_succ_iff.mp hb with hbe | rfl
      · exact hl number hbe ha
      · rw [hac] at ha
        cases ha

/-- How much of the end of a text must be kept: no longer end of it begins a pattern. -/
def KeepsEnough (patterns : List (List α)) (text : List α) (kept : Nat) : Prop :=
  kept ≤ text.length ∧ ∀ position, position + kept < text.length →
    ∀ pattern ∈ patterns, ¬ text.drop position <+: pattern

/-- The shown part of a text without a match takes part in no occurrence, whatever follows. -/
structure Cleared (patterns : List (List α)) (shown pending : List α) : Prop where
  clean : firstMatch patterns (shown ++ pending) = none
  settled : ∀ more, ∀ position < shown.length,
    patternAt patterns ((shown ++ pending ++ more).drop position) = none

section Pieces

variable {patterns : List (List α)} (nonempty : ∀ pattern ∈ patterns, pattern ≠ [])

include nonempty

theorem cleared_nil : Cleared patterns [] [] :=
  ⟨(firstMatch_eq_none nonempty).mpr fun position => by
    rw [append_nil, drop_nil]
    exact patternAt_none.mpr fun pattern hl hs => nonempty pattern hl (prefix_nil.mp hs), by simp⟩

namespace Cleared

variable {shown pending : List α} (cleared : Cleared patterns shown pending)
include cleared

/-- The match in the rest is the match in the whole text. -/
theorem firstMatch_append (more : List α) : firstMatch patterns (shown ++ pending ++ more) =
      (firstMatch patterns (pending ++ more)).map fun occurrence =>
        (shown.length + occurrence.1, occurrence.2) := by
  have hs : ∀ position, (shown ++ pending ++ more).drop (shown.length + position) =
      (pending ++ more).drop position := by
    intro position
    rw [append_assoc, drop_length_add_append]
  cases hm : firstMatch patterns (pending ++ more) with
  | none =>
    rw [map_none, firstMatch_eq_none nonempty]
    intro position
    rcases lt_or_ge position shown.length with he | hl
    · exact cleared.settled more position he
    · obtain ⟨offset, rfl⟩ := Nat.exists_eq_add_of_le hl
      rw [hs]
      exact (firstMatch_eq_none nonempty).mp hm offset
  | some occurrence =>
    obtain ⟨hh, hea⟩ := (firstMatch_eq_some nonempty).mp hm
    rw [map_some, firstMatch_eq_some nonempty]
    refine ⟨by rw [hs, hh], fun other hle => ?_⟩
    rcases lt_or_ge other shown.length with he | hl
    · exact cleared.settled more other he
    · obtain ⟨offset, rfl⟩ := Nat.exists_eq_add_of_le hl
      rw [hs]
      exact hea offset (by omega)

theorem extend {more : List α} (hu : firstMatch patterns (pending ++ more) = none) {kept : Nat}
    (hk : KeepsEnough patterns (pending ++ more) kept) :
    Cleared patterns (shown ++ (pending ++ more).take ((pending ++ more).length - kept))
      ((pending ++ more).drop ((pending ++ more).length - kept)) := by
  have hw : shown ++ (pending ++ more).take ((pending ++ more).length - kept) ++
      (pending ++ more).drop ((pending ++ more).length - kept) = shown ++ pending ++ more := by
    rw [append_assoc, take_append_drop, append_assoc]
  have hcl : firstMatch patterns (shown ++ pending ++ more) = none := by
    rw [cleared.firstMatch_append nonempty more, hu, map_none]
  refine ⟨by rw [hw, hcl], fun later position hb => ?_⟩
  rw [hw]
  rcases lt_or_ge position shown.length with he | hla
  · have hs := cleared.settled (more ++ later) position he
    rwa [← append_assoc] at hs
  · obtain ⟨offset, rfl⟩ := Nat.exists_eq_add_of_le hla
    have hwi : offset + kept < (pending ++ more).length := by
      simp only [length_append, length_take] at hb ⊢
      omega
    rw [append_assoc, append_assoc, drop_length_add_append, ← append_assoc,
      drop_append_of_le_length (by omega), patternAt_none]
    intro pattern hl hst
    -- A pattern that starts here is complete, or the text ends inside it.
    rcases prefix_or_prefix_of_prefix hst (prefix_append _ _) with hc | hp
    · exact patternAt_none.mp ((firstMatch_eq_none nonempty).mp hu offset) pattern hl hc
    · exact hk.2 offset hwi pattern hl hp

end Cleared

end Pieces

/-- The text that has come when the search ends: the pieces up to the first that completes a
pattern. -/
def consumed (patterns : List (List α)) (text : List α) : List (List α) → List α
  | [] => text
  | piece :: pieces =>
    if (firstMatch patterns (text ++ piece)).isSome then text ++ piece
    else consumed patterns (text ++ piece) pieces

section Consumed

variable (patterns : List (List α))

theorem consumed_prefix (text : List α) (pieces : List (List α)) :
    consumed patterns text pieces <+: text ++ pieces.flatten := by
  induction pieces generalizing text with
  | nil => simp [consumed]
  | cons piece pieces ih =>
    rw [consumed, flatten_cons, ← append_assoc]
    split
    · exact prefix_append _ _
    · exact ih (text ++ piece)

/-- A search that finds nothing has seen all pieces. -/
theorem consumed_of_clean {text : List α} {pieces : List (List α)}
    (hc : firstMatch patterns (consumed patterns text pieces) = none) :
    consumed patterns text pieces = text ++ pieces.flatten := by
  induction pieces generalizing text with
  | nil => simp [consumed]
  | cons piece pieces ih =>
    rw [consumed] at hc ⊢
    rw [flatten_cons, ← append_assoc]
    split at hc
    · next hf => simp [hc] at hf
    · next hu =>
      rw [if_neg hu]
      exact ih hc

theorem consumed_append {text : List α} {pieces : List (List α)}
    (later : List (List α)) (hc : firstMatch patterns text = none)
    (hm : firstMatch patterns (consumed patterns text pieces) ≠ none) :
    consumed patterns text (pieces ++ later) = consumed patterns text pieces := by
  induction pieces generalizing text with
  | nil => exact absurd hc hm
  | cons piece pieces ih =>
    rw [consumed] at hm
    rw [cons_append, consumed, consumed]
    split at hm
    · next hf => rw [if_pos hf, if_pos hf]
    · next hu =>
      rw [if_neg hu, if_neg hu]
      exact ih (by simpa using hu) hm

end Consumed

/-- No pattern that can be found has a pattern inside that ends before it. -/
def Separated (patterns : List (List α)) : Prop :=
  ∀ pattern ∈ patterns, patternAt patterns pattern = some pattern →
    ∀ inner ∈ patterns, ∀ before after, pattern = before ++ (inner ++ after) → after = []

/-- The leftmost match in the whole text is complete when the search ends. -/
def CompleteInTime (patterns : List (List α)) (pieces : List (List α)) : Prop :=
  ∀ position pattern, firstMatch patterns pieces.flatten = some (position, pattern) →
    position + pattern.length ≤ (consumed patterns [] pieces).length

section Independence

variable {patterns : List (List α)} (nonempty : ∀ pattern ∈ patterns, pattern ≠ [])
include nonempty

theorem Separated.not_later (hs : Separated patterns) {text more pattern found : List α}
    {position earlier : Nat} (hh : patternAt patterns (text.drop position) = some pattern)
    (le : earlier ≤ position) (hl : patternAt patterns ((text ++ more).drop earlier) = some found) :
    patternAt patterns (text.drop earlier) = some found := by
  have hb := patternAt_drop_lt nonempty hh
  rw [drop_append_of_le_length (by omega)] at hl
  obtain ⟨hli, hst⟩ := patternAt_some hl
  rcases prefix_or_prefix_of_prefix hst (prefix_append _ _) with hc | ⟨beyond, rfl⟩
  · exact patternAt_of_initial hl hc (prefix_append _ _)
  · obtain ⟨hi, rest, hsp⟩ := patternAt_some hh
    -- The pattern that is found later reaches over the end and holds the one found before.
    have hco : text.drop earlier = (text.drop earlier).take (position - earlier) ++
        (pattern ++ rest) := by
      have hp := take_append_drop (position - earlier) (text.drop earlier)
      rw [drop_drop, show earlier + (position - earlier) = position by omega] at hp
      rw [hsp, hp]
    have he := hs _ hli (patternAt_self hl) pattern hi
      ((text.drop earlier).take (position - earlier)) (rest ++ beyond)
      (by conv_lhs => rw [hco]
          simp only [append_assoc])
    rw [(append_eq_nil_iff.mp he).2, append_nil] at hl ⊢
    exact patternAt_of_initial hl (prefix_refl _) (prefix_append _ _)

theorem Separated.firstMatch_append (hs : Separated patterns) {text : List α} (more : List α)
    {occurrence : Nat × List α} (hm : firstMatch patterns text = some occurrence) :
    firstMatch patterns (text ++ more) = some occurrence := by
  obtain ⟨position, pattern⟩ := occurrence
  obtain ⟨hh, he⟩ := (firstMatch_eq_some nonempty).mp hm
  have hb := patternAt_drop_lt nonempty hh
  refine (firstMatch_eq_some nonempty).mpr ⟨?_, fun other hle => ?_⟩
  · cases hl : patternAt patterns ((text ++ more).drop position) with
    | some found => rw [← hs.not_later nonempty hh le_rfl hl, hh]
    | none =>
      obtain ⟨hli, hst⟩ := patternAt_some hh
      rw [drop_append_of_le_length (by omega), patternAt_none] at hl
      exact absurd (hst.trans (prefix_append _ _)) (hl pattern hli)
  · cases hl : patternAt patterns ((text ++ more).drop other) with
    | none => rfl
    | some found =>
      have hso := hs.not_later nonempty hh (le_of_lt hle) hl
      rw [he other hle] at hso
      cases hso

theorem Separated.deliver_append (hs : Separated patterns) {text : List α} (more : List α)
    (hm : firstMatch patterns text ≠ none) :
    deliver patterns (text ++ more) = deliver patterns text := by
  obtain ⟨⟨position, pattern⟩, hf⟩ := ne_none_iff_exists'.mp hm
  have hb := patternAt_drop_lt nonempty ((firstMatch_eq_some nonempty).mp hf).1
  rw [deliver, deliver, hs.firstMatch_append nonempty more hf, hf]
  simp only [take_append_of_le_length (le_of_lt hb)]

/-- Conversely, a pattern inside a pattern makes a difference. -/
theorem separated_of_deliver_append (hi : ∀ text more, firstMatch patterns text ≠ none →
      deliver patterns (text ++ more) = deliver patterns text) : Separated patterns := by
  intro pattern hl hc inner hin before after hs
  have hie : firstMatch patterns (before ++ inner) ≠ none := by
    intro hcl
    exact not_infix_of_firstMatch_eq_none nonempty hcl hin (suffix_append before inner).isInfix
  have hw : firstMatch patterns pattern = some (0, pattern) :=
    (firstMatch_eq_some nonempty).mpr ⟨hc, by simp⟩
  have same := hi (before ++ inner) after hie
  rw [append_assoc, ← hs] at same
  obtain ⟨⟨position, found⟩, hm⟩ := ne_none_iff_exists'.mp hie
  simp only [deliver, hw, hm, mk.injEq, some.injEq] at same
  obtain ⟨-, rfl⟩ := same
  -- The whole pattern is found within a part of it.
  have hf := (patternAt_some ((firstMatch_eq_some nonempty).mp hm).1).2.length_le
  have hsi := congrArg length hs
  simp only [length_append, length_drop] at hf hsi
  exact length_eq_zero_iff.mp (by omega)

/-- Cutting a text makes no difference exactly if its leftmost match is complete when the search
ends. -/
theorem deliver_consumed_iff (pieces : List (List α)) :
    deliver patterns (consumed patterns [] pieces) = deliver patterns pieces.flatten ↔
      CompleteInTime patterns pieces := by
  obtain ⟨rest, hw⟩ := consumed_prefix patterns [] pieces
  have hc := @consumed_of_clean α _ patterns [] pieces
  unfold CompleteInTime
  rw [nil_append] at hw hc
  rw [← hw] at hc ⊢
  generalize consumed patterns [] pieces = text at hc ⊢
  constructor
  · intro same position pattern hm
    rw [deliver, deliver, hm] at same
    cases hf : firstMatch patterns text with
    | none => simp [hf] at same
    | some occurrence =>
      obtain ⟨start, other⟩ := occurrence
      simp only [hf, mk.injEq, some.injEq] at same
      obtain ⟨hv, rfl⟩ := same
      have hh := ((firstMatch_eq_some nonempty).mp hf).1
      have hbo := patternAt_drop_lt nonempty hh
      have hla := patternAt_drop_lt nonempty ((firstMatch_eq_some nonempty).mp hm).1
      have hsi := congrArg length hv
      have hfi := (patternAt_some hh).2.length_le
      simp only [length_take, length_drop] at hsi hfi hla
      omega
  · intro hco
    cases hm : firstMatch patterns (text ++ rest) with
    | none =>
      have hu : firstMatch patterns text = none := by
        by_contra hf
        obtain ⟨⟨position, pattern⟩, hf⟩ := ne_none_iff_exists'.mp hf
        obtain ⟨hl, hs⟩ := patternAt_some ((firstMatch_eq_some nonempty).mp hf).1
        exact not_infix_of_firstMatch_eq_none nonempty hm hl
          ((hs.isInfix.trans (drop_suffix _ _).isInfix).trans (prefix_append text rest).isInfix)
      conv_lhs => rw [hc hu]
    | some occurrence =>
      obtain ⟨position, pattern⟩ := occurrence
      have hb := hco position pattern hm
      obtain ⟨hh, he⟩ := (firstMatch_eq_some nonempty).mp hm
      have hi : ∀ start, text.drop start <+: (text ++ rest).drop start := by
        intro start
        rw [drop_append]
        exact prefix_append _ _
      have hf : firstMatch patterns text = some (position, pattern) := by
        refine (firstMatch_eq_some nonempty).mpr ⟨patternAt_of_initial hh ?_ (hi position), ?_⟩
        · apply prefix_of_prefix_length_le (patternAt_some hh).2 (hi position)
          rw [length_drop]
          omega
        · intro other hle
          rw [patternAt_none]
          intro candidate hl hs
          exact patternAt_none.mp (he other hle) candidate hl (hs.trans (hi other))
      rw [deliver, deliver, hf, hm]
      simp only [take_append_of_le_length (show position ≤ text.length by omega)]

/-- The search delivers the same for all ways to cut a text exactly if no pattern inside a pattern
ends before it. -/
theorem deliver_consumed_iff_separated :
    (∀ pieces, deliver patterns (consumed patterns [] pieces) = deliver patterns pieces.flatten) ↔
      Separated patterns := by
  constructor
  · intro hi
    apply separated_of_deliver_append nonempty
    intro text more hm
    have cut := hi [text, more]
    simpa [consumed, isSome_iff_ne_none.mpr hm] using cut.symm
  · intro hs pieces
    obtain ⟨rest, hw⟩ := consumed_prefix patterns [] pieces
    rw [nil_append] at hw
    cases hm : firstMatch patterns (consumed patterns [] pieces) with
    | none => rw [consumed_of_clean patterns hm, nil_append]
    | some occurrence =>
      rw [← hw]
      exact (hs.deliver_append nonempty rest (by simp [hm])).symm

end Independence

/-- Two lists of patterns with the same members, of which the same one is found in every text. -/
structure SameSearch (patterns others : List (List α)) : Prop where
  mem : ∀ pattern, pattern ∈ patterns ↔ pattern ∈ others
  found : patternAt patterns = patternAt others

theorem SameSearch.refl (patterns : List (List α)) : SameSearch patterns patterns :=
  ⟨fun _ => .rfl, rfl⟩

theorem sameSearch_repeated {patterns : List (List α)} {pattern : List α} (hl : pattern ∈ patterns)
    (rest : List (List α)) : SameSearch (patterns ++ rest) (patterns ++ pattern :: rest) := by
  constructor
  · intro other
    simp only [mem_append, mem_cons]
    constructor
    · rintro (hi | hi)
      · exact .inl hi
      · exact .inr (.inr hi)
    · rintro (hi | rfl | hi)
      · exact .inl hi
      · exact .inl hl
      · exact .inr hi
  · funext text
    unfold patternAt
    rw [find?_append, find?_append]
    cases hb : patterns.find? fun pattern => pattern.isPrefixOf text with
    | some found => rfl
    | none =>
      have hm := find?_eq_none.mp hb pattern hl
      simp only [find?_cons, hm]

namespace SameSearch

variable {patterns others : List (List α)} (same : SameSearch patterns others)
include same

theorem trans {further : List (List α)} (hn : SameSearch others further) :
    SameSearch patterns further :=
  ⟨fun pattern => (same.mem pattern).trans (hn.mem pattern), same.found.trans hn.found⟩

theorem firstMatch_eq : firstMatch patterns = firstMatch others := by
  funext text
  rw [firstMatch, firstMatch, same.found]

theorem deliver_eq : deliver patterns = deliver others := by
  funext text
  rw [deliver, deliver, same.firstMatch_eq]

theorem consumed_eq (text : List α) (pieces : List (List α)) :
    consumed patterns text pieces = consumed others text pieces := by
  induction pieces generalizing text with
  | nil => rfl
  | cons piece pieces ih => rw [consumed, consumed, same.firstMatch_eq, ih]

end SameSearch

end Eredu.Scan
