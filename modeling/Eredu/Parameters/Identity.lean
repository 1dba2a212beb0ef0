import Eredu.Foundation.Codec
import Eredu.Parameters.Coordinates

/-!
# The identity of a coordinate map

`identity` hashes the number of axes and, for each axis, its global count, its local
count and its coordinates as runs of neighbours. Here are the bytes it hashes.
-/

namespace Eredu.Parameters

open List Nat Option Word Codec

section

variable (count : Nat) (global : Nat → Option Nat)

/-- The inner loop: so many coordinates from `place` on are neighbours. -/
def runLength (place start length : Nat) : Nat :=
  if place + length < count ∧ global (place + length) = checkedAdd start length then
    runLength place start (length + 1)
  else
    length
termination_by count - (place + length)

theorem le_runLength (place start length : Nat) :
    length ≤ runLength count global place start length := by
  fun_induction runLength count global place start length with
  | case1 length _ ih => omega
  | case2 length _ => exact le_rfl

/-- The outer loop: a run is written as its first coordinate and its length. -/
def runs (place : Nat) : List Nat :=
  if place < count then
    let start := (global place).getD 0
    let length := runLength count global place start 1
    start :: length :: runs (place + length)
  else
    []
termination_by count - place
decreasing_by
  have := le_runLength count global place ((global place).getD 0) 1
  omega

end

namespace ComponentCoordinateMap

variable (map : ComponentCoordinateMap)

def axisWords : List Nat :=
  map.globalCount :: map.localCount :: match map.selection with
    | .range start finish => if start < finish then [start, finish - start] else []
    | .indices _ => runs map.localCount map.localToGlobal 0

def coordinates : List Nat :=
  match map.selection with
  | .range start finish => range' start (finish - start)
  | .indices listed => listed

def SamePlacement (other : ComponentCoordinateMap) : Prop :=
  map.globalCount = other.globalCount ∧ map.coordinates = other.coordinates

end ComponentCoordinateMap

namespace ParameterCoordinateMap

def identityBytes (map : ParameterCoordinateMap) : List UInt8 :=
  "eredu-parameter-coordinates-v1\x00".toUTF8.toList ++
    (map.axes.length :: map.axes.flatMap (·.axisWords)).flatMap (leBytes 8)

/-- Counts are words. -/
structure Fits (map : ParameterCoordinateMap) : Prop where
  axes : map.axes.length ≤ maximum
  counts : ∀ axis ∈ map.axes, axis.globalCount ≤ maximum

end ParameterCoordinateMap

section

variable {count : Nat} {global other : Nat → Option Nat}

theorem runLength_spec {place start length : Nat} (hg : ∀ place < count, (global place).isSome)
    (hb : place + length ≤ count) (hr : ∀ step < length, global (place + step) = some (start + step)) :
    place + runLength count global place start length ≤ count ∧
      ∀ step < runLength count global place start length,
        global (place + step) = some (start + step) := by
  fun_induction runLength count global place start length with
  | case1 length hc ih =>
    refine ih hc.1 fun step hs => ?_
    rcases Nat.lt_succ_iff_lt_or_eq.mp hs with hs | rfl
    · exact hr step hs
    · obtain ⟨next, hn⟩ := isSome_iff_exists.mp (hg _ hc.1)
      rw [hn, (checkedAdd_eq_some.mp (hc.2.symm.trans hn)).1]
  | case2 length _ => exact ⟨hb, hr⟩

theorem runLength_eq {start length : Nat} (hb : length ≤ count) (hf : start + count ≤ maximum)
    (hr : ∀ place < count, global place = some (start + place)) :
    runLength count global 0 start length = count := by
  fun_induction runLength count global 0 start length with
  | case1 length hc ih => exact ih (by omega)
  | case2 length hc =>
    by_contra hl
    have hb : length < count := by omega
    refine hc ⟨by omega, ?_⟩
    rw [zero_add, hr length hb]
    exact (checkedAdd_eq_some.mpr ⟨rfl, by omega⟩).symm

section

variable (hg : ∀ place < count, (global place).isSome)
include hg

theorem run_spec {place : Nat} (hp : place < count) :
    place + runLength count global place ((global place).getD 0) 1 ≤ count ∧
      ∀ step < runLength count global place ((global place).getD 0) 1,
        global (place + step) = some ((global place).getD 0 + step) := by
  refine runLength_spec hg hp fun step hs => ?_
  obtain ⟨first, hf⟩ := isSome_iff_exists.mp (hg place hp)
  rw [lt_one_iff.mp hs, add_zero, hf, getD_some, add_zero]

/-- The runs of an axis can be told from what follows them. -/
theorem runs_append_inj {place : Nat} {rest tail : List Nat}
    (ho : ∀ place < count, (other place).isSome)
    (he : runs count global place ++ rest = runs count other place ++ tail) :
    (∀ later, place ≤ later → later < count → global later = other later) ∧ rest = tail := by
  fun_induction runs count global place with
  | case1 place hp start length ih =>
    rw [runs.eq_def count other place, if_pos hp] at he
    obtain ⟨hs, he⟩ := cons.inj he
    obtain ⟨hl, he⟩ := cons.inj he
    rw [← hl] at he
    obtain ⟨hi, ht⟩ := ih he
    refine ⟨fun later hf hb => ?_, ht⟩
    by_cases hr : later < place + length
    · have hm : later - place < length := by omega
      rw [← Nat.add_sub_cancel' hf, (run_spec hg hp).2 _ hm, (run_spec ho hp).2 _ (hl ▸ hm), ← hs]
    · exact hi later (by omega) hb
  | case2 place hp =>
    rw [runs.eq_def count other place, if_neg hp] at he
    exact ⟨fun later hf hb => absurd (hf.trans_lt hb) hp, he⟩

theorem runs_le {place bound : Nat}
    (hc : count ≤ bound) (hb : ∀ place value, global place = some value → value ≤ bound) :
    ∀ word ∈ runs count global place, word ≤ bound := by
  fun_induction runs count global place with
  | case1 place hp start length ih =>
    have hl : place + length ≤ count := (run_spec hg hp).1
    obtain ⟨first, hf⟩ := isSome_iff_exists.mp (hg place hp)
    have hs : start ≤ bound := hb place start (by simp [start, hf])
    exact forall_mem_cons.mpr ⟨hs, forall_mem_cons.mpr ⟨by omega, ih⟩⟩
  | case2 place hp => exact fun word hm => absurd hm not_mem_nil

end

end

namespace ComponentCoordinateMap

variable (axis other : ComponentCoordinateMap)

theorem localCount_eq : axis.localCount = axis.coordinates.length := by
  cases hs : axis.selection <;> simp [localCount, coordinates, hs]

theorem localToGlobal_eq (place : Nat) : axis.localToGlobal place = axis.coordinates[place]? := by
  cases hs : axis.selection with
  | indices listed => simp only [localToGlobal, coordinates, hs]
  | range start finish =>
    simp only [localToGlobal, coordinates, hs]
    split
    · rename_i hp
      rw [getElem?_range' hp, one_mul]
    · rename_i hp
      exact (getElem?_eq_none (by simpa using hp)).symm

theorem coordinates_valid :
    (∀ value ∈ axis.coordinates, value < axis.globalCount) ∧ axis.coordinates.Nodup := by
  have hv := axis.valid
  cases hs : axis.selection with
  | indices listed => simpa [hs, coordinates, Selection.Valid] using hv
  | range start finish =>
    simp only [hs, Selection.Valid] at hv
    refine ⟨fun value hm => ?_, by simp [coordinates, hs, nodup_range']⟩
    simp only [coordinates, hs, mem_range'_1] at hm
    omega

theorem length_coordinates_le : axis.coordinates.length ≤ axis.globalCount := by
  obtain ⟨hb, hd⟩ := axis.coordinates_valid
  have hs : axis.coordinates ⊆ List.range axis.globalCount := fun value hm =>
    mem_range.mpr (hb value hm)
  simpa using (hd.subperm hs).length_le

/-- The words of an axis say the same for a range and for its list. -/
theorem axisWords_eq (hf : axis.globalCount ≤ Word.maximum) :
    axis.axisWords = axis.globalCount :: axis.coordinates.length ::
      runs axis.coordinates.length (axis.coordinates[·]?) 0 := by
  have hg : axis.localToGlobal = (axis.coordinates[·]?) := funext axis.localToGlobal_eq
  rw [axisWords, ← axis.localCount_eq, ← hg]
  cases hs : axis.selection with
  | indices listed => rfl
  | range start finish =>
    have hv := axis.valid
    rw [hs] at hv
    have hc : axis.localCount = finish - start := by rw [localCount, hs]
    have ht : ∀ place < finish - start, axis.localToGlobal place = some (start + place) :=
      fun place hp => by rw [localToGlobal, hs]; exact if_pos hp
    simp only [hc]
    rw [runs]
    by_cases he : start < finish
    · have hp : 0 < finish - start := Nat.sub_pos_of_lt he
      have hw : start + (finish - start) ≤ Word.maximum := by
        rw [Nat.add_sub_cancel' hv.1]
        exact hv.2.trans hf
      rw [if_pos he, if_pos hp, ht 0 hp]
      simp only [Option.getD_some, add_zero, zero_add, runLength_eq hp hw ht]
      rw [runs, if_neg (lt_irrefl _)]
    · rw [if_neg he, if_neg (fun hp => he (Nat.lt_of_sub_pos hp))]

theorem axisWords_le (hf : axis.globalCount ≤ maximum) :
    ∀ word ∈ axis.axisWords, word ≤ maximum := by
  have hl := axis.length_coordinates_le.trans hf
  rw [axis.axisWords_eq hf]
  refine forall_mem_cons.mpr ⟨hf, forall_mem_cons.mpr ⟨hl, runs_le (by simp) hl ?_⟩⟩
  intro place value hg
  exact (axis.coordinates_valid.1 value (mem_of_getElem? hg)).le.trans hf

theorem axisWords_append_inj {rest tail : List Nat} (ha : axis.globalCount ≤ maximum)
    (ho : other.globalCount ≤ maximum)
    (he : axis.axisWords ++ rest = other.axisWords ++ tail) :
    axis.SamePlacement other ∧ rest = tail := by
  rw [axis.axisWords_eq ha, other.axisWords_eq ho] at he
  obtain ⟨hc, he⟩ := cons.inj he
  obtain ⟨hl, he⟩ := cons.inj he
  rw [hl] at he
  obtain ⟨hg, ht⟩ := runs_append_inj (by simp [hl]) (by simp) he
  refine ⟨⟨hc, ext_getElem? fun place => ?_⟩, ht⟩
  by_cases hp : place < other.coordinates.length
  · exact hg place (zero_le _) hp
  · rw [getElem?_eq_none (hl.trans_le (not_lt.mp hp)), getElem?_eq_none (not_lt.mp hp)]

end ComponentCoordinateMap

variable {axes others : List ComponentCoordinateMap}

theorem flatMap_axisWords_inj
    (hs : axes.length = others.length) (ha : ∀ axis ∈ axes, axis.globalCount ≤ maximum)
    (ho : ∀ axis ∈ others, axis.globalCount ≤ maximum)
    (he : axes.flatMap (·.axisWords) = others.flatMap (·.axisWords)) :
    Forall₂ ComponentCoordinateMap.SamePlacement axes others := by
  induction axes generalizing others with
  | nil =>
    rw [length_eq_zero_iff.mp hs.symm]
    exact .nil
  | cons axis axes ih =>
    cases others with
    | nil => cases hs
    | cons other others =>
      obtain ⟨hf, ha⟩ := forall_mem_cons.mp ha
      obtain ⟨hg, ho⟩ := forall_mem_cons.mp ho
      obtain ⟨hh, he⟩ := axis.axisWords_append_inj other hf hg he
      exact .cons hh (ih (succ.inj hs) ha ho he)

theorem flatMap_axisWords_congr (hs : Forall₂ ComponentCoordinateMap.SamePlacement axes others)
    (ha : ∀ axis ∈ axes, axis.globalCount ≤ maximum) :
    axes.flatMap (·.axisWords) = others.flatMap (·.axisWords) := by
  induction hs with
  | nil => rfl
  | @cons axis other axes others hh _ ih =>
    obtain ⟨hf, ha⟩ := forall_mem_cons.mp ha
    rw [flatMap_cons, flatMap_cons, axis.axisWords_eq hf, other.axisWords_eq (hh.1 ▸ hf), hh.1, hh.2,
      ih ha]

theorem ParameterCoordinateMap.Fits.words_lt {map : ParameterCoordinateMap} (hf : map.Fits) :
    ∀ word ∈ map.axes.length :: map.axes.flatMap (·.axisWords), word < 256 ^ 8 := by
  refine forall_mem_cons.mpr ⟨lt_succ_of_le hf.axes, fun word hm => ?_⟩
  obtain ⟨axis, hl, hm⟩ := mem_flatMap.mp hm
  exact lt_succ_of_le (axis.axisWords_le (hf.counts axis hl) word hm)

theorem identity_names_placement {map other : ParameterCoordinateMap} (hm : map.Fits)
    (ho : other.Fits) : map.identityBytes = other.identityBytes ↔
      Forall₂ ComponentCoordinateMap.SamePlacement map.axes other.axes := by
  constructor
  · intro he
    have hw := flatMap_leBytes_inj (by decide) hm.words_lt ho.words_lt (append_cancel_left he)
    obtain ⟨hs, hw⟩ := cons.inj hw
    exact flatMap_axisWords_inj hs hm.counts ho.counts hw
  · intro hs
    rw [ParameterCoordinateMap.identityBytes, hs.length_eq, flatMap_axisWords_congr hs hm.counts]
    rfl

/-- A range and its list are named alike. -/
theorem identity_names_placement_range :
    let ranged : ParameterCoordinateMap :=
      ⟨[5], [⟨5, .range 1 4, by decide, by simp [Selection.Valid]⟩], rfl⟩
    let listed : ParameterCoordinateMap :=
      ⟨[5], [⟨5, .indices [1, 2, 3], by decide, by simp [Selection.Valid]⟩], rfl⟩
    ranged.identityBytes = listed.identityBytes :=
  (identity_names_placement ⟨by decide, by decide⟩ ⟨by decide, by decide⟩).mpr
    (.cons ⟨rfl, rfl⟩ .nil)

end Eredu.Parameters
