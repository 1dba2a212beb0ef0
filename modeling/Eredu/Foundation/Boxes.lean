import Eredu.Foundation.RowMajor
import Eredu.Foundation.Scatter

/-!
# Boxes of cells

A box is one interval per axis. Boxes of one rank can be met and cut: what is left
of a box outside another is a list of boxes again. `Tiles` says that boxes have
every cell of a box exactly once, and is kept when a tile is replaced by tiles of
it.
-/

namespace Eredu

open List RowMajor Forall₂ Function Nat

structure Interval where
  start : Nat
  width : Nat
  deriving Repr, DecidableEq

variable {place : Nat} (interval : Interval)

namespace Interval

def finish : Nat := interval.start + interval.width

def Contains (place : Nat) : Prop :=
  interval.start ≤ place ∧ place < interval.finish

def Within (inner outer : Interval) : Prop := outer.start ≤ inner.start ∧ inner.finish ≤ outer.finish

def meet (left right : Interval) : Interval :=
  ⟨max left.start right.start, min left.finish right.finish - max left.start right.start⟩

theorem contains_meet {left right : Interval} :
    (left.meet right).Contains place ↔ left.Contains place ∧ right.Contains place := by
  simp only [Contains, meet, finish]
  omega

end Interval

abbrev Box := List Interval

variable {cell : List Nat} (box : Box)

namespace Box

open Eredu.Interval (Within)

def starts : List Nat := box.map Interval.start

def shape : List Nat := box.map Interval.width

def Contains (cell : List Nat) : Prop := Forall₂ Interval.Contains box cell

def cellAt (offset : List Nat) : List Nat := zipWith (· + ·) box.starts offset

def cells : List (List Nat) := (coordinates box.shape).map box.cellAt

variable {box : Box} {offset : List Nat}

theorem contains_cellAt (hi : offset ∈ coordinates box.shape) :
    box.Contains (box.cellAt offset) := by
  induction box generalizing offset with
  | nil => exact nil
  | cons interval box ih =>
    cases mem_coordinates.mp hi with
    | cons hs ho =>
      apply Forall₂.cons
      · exact ⟨Nat.le_add_right _ _, Nat.add_lt_add_left hs _⟩
      · exact ih (mem_coordinates.mpr ho)

theorem exists_cellAt (hc : box.Contains cell) :
    ∃ offset ∈ coordinates box.shape, box.cellAt offset = cell := by
  induction hc with
  | nil => exact ⟨[], mem_coordinates.mpr nil, rfl⟩
  | @cons interval place box cell hw _ ih =>
    obtain ⟨offset, hi, rfl⟩ := ih
    obtain ⟨ha, hb⟩ := hw
    refine ⟨(place - interval.start) :: offset, mem_coordinates.mpr ?_, ?_⟩
    · apply cons _ (mem_coordinates.mp hi)
      unfold Interval.finish at hb
      omega
    · show (interval.start + (place - interval.start)) :: _ = _
      rw [Nat.add_sub_cancel' ha]
      rfl

theorem mem_cells : cell ∈ box.cells ↔ box.Contains cell := by
  constructor
  · intro hl
    obtain ⟨offset, hi, rfl⟩ := mem_map.mp hl
    exact contains_cellAt hi
  · intro hc
    obtain ⟨offset, hi, rfl⟩ := exists_cellAt hc
    exact mem_map_of_mem hi

theorem length_cells (box : Box) : box.cells.length = box.shape.prod := by
  rw [cells, length_map, ← map_unravel_range, length_map, length_range]

theorem cellAt_injective {first second : List Nat} (hf : first ∈ coordinates box.shape)
    (hs : second ∈ coordinates box.shape) (hsa : box.cellAt first = box.cellAt second) :
    first = second := by
  induction box generalizing first second with
  | nil =>
    cases mem_coordinates.mp hf
    cases mem_coordinates.mp hs
    rfl
  | cons interval box ih =>
    cases mem_coordinates.mp hf with
    | cons _ hfi =>
      cases mem_coordinates.mp hs with
      | cons _ hse =>
        obtain ⟨hh, ht⟩ := cons.inj hsa
        rw [add_left_cancel hh, ih (mem_coordinates.mpr hfi) (mem_coordinates.mpr hse) ht]

theorem nodup_cells (box : Box) : box.cells.Nodup :=
  Nodup.map_on (fun _ hf _ hs => cellAt_injective hf hs) (nodup_coordinates box.shape)

def meet (left right : Box) : Box := zipWith Interval.meet left right

variable {right left : Box}

theorem contains_meet (hs : left.length = right.length) :
    (left.meet right).Contains cell ↔ left.Contains cell ∧ right.Contains cell := by
  induction left, right, hs using paired generalizing cell with
  | nil => exact (and_self_iff).symm
  | cons first left second right _ ih =>
    cases cell with
    | nil => simp [meet, Contains]
    | cons place cell =>
      have ho := @ih cell
      simp only [Contains, meet, zipWith_cons_cons, forall₂_cons, Interval.contains_meet] at ho ⊢
      tauto

def between (start finish : Nat) : List Interval :=
  if start = finish then [] else [⟨start, finish - start⟩]

def sides (source cut : Interval) : List Interval :=
  between source.start cut.start ++ between cut.finish source.finish

def cuts : Box → Box → List Box
  | interval :: source, other :: cut =>
    (sides interval other).map (· :: source) ++ (cuts source cut).map (other :: ·)
  | _, _ => []

def Apart (left right : Box) : Prop := ∀ cell, left.Contains cell → ¬ right.Contains cell

theorem Apart.symm (ha : left.Apart right) : right.Apart left :=
  fun cell hi hin => ha cell hin hi

theorem apart_of_head {first second : Interval} (left right : Box)
    (ha : ∀ place, first.Contains place → ¬ second.Contains place) :
    Apart (first :: left) (second :: right) := by
  rintro cell (_ | ⟨hin, _⟩) hit
  cases hit with
  | cons hi _ => exact ha _ hin hi

theorem apart_of_tail (first second : Interval) (ha : Apart left right) :
    Apart (first :: left) (second :: right) := by
  rintro cell (_ | ⟨_, hin⟩) hi
  cases hi with
  | cons _ ho => exact ha _ hin ho

/-- Boxes that have every cell of a box exactly once. -/
structure Tiles (tiles : List Box) (whole : Box) : Prop where
  apart : tiles.Pairwise Apart
  cover : ∀ cell, whole.Contains cell ↔ ∃ tile ∈ tiles, tile.Contains cell

theorem tiles_self (box : Box) : Tiles [box] box :=
  ⟨pairwise_singleton _ _, fun cell => by simp⟩

variable {whole : Box} {tiles : List Box}

theorem Tiles.perm {others : List Box} (hh : Tiles tiles whole) (hs : tiles.Perm others) :
    Tiles others whole := by
  refine ⟨(hs.pairwise_iff fun ha => ha.symm).mp hh.apart, fun cell => ?_⟩
  rw [hh.cover]
  simp only [hs.mem_iff]

theorem Tiles.refine {tile : Box} {pieces : List Box} (hh : Tiles (tile :: tiles) whole)
    (hp : Tiles pieces tile) : Tiles (pieces ++ tiles) whole := by
  obtain ⟨hf, ho⟩ := pairwise_cons.mp hh.apart
  constructor
  · apply pairwise_append.mpr
    refine ⟨hp.apart, ho, fun piece hl other hm cell hi hin => ?_⟩
    exact hf other hm cell ((hp.cover cell).mpr ⟨piece, hl, hi⟩) hin
  · intro cell
    simp only [hh.cover, mem_cons, mem_append, or_and_right, exists_or, exists_eq_left, hp.cover]

section Cuts

variable {interval other : Interval}

theorem contains_between {start finish : Nat} :
    (∃ side ∈ between start finish, side.Contains place) ↔ start ≤ place ∧ place < finish := by
  unfold between
  split
  · simp
    omega
  · simp only [mem_singleton, exists_eq_left, Interval.Contains, Interval.finish]
    omega

theorem contains_sides (hw : Within other interval) :
    (∃ side ∈ sides interval other, side.Contains place) ↔
      interval.Contains place ∧ ¬ other.Contains place := by
  simp only [sides, mem_append, or_and_right, exists_or, contains_between]
  simp only [Interval.Contains, Within, Interval.finish] at *
  omega

theorem pairwise_sides (interval other : Interval) (source : Box) :
    ((sides interval other).map (· :: source)).Pairwise Apart := by
  have hs : ∀ start finish, ((between start finish).map (· :: source)).Pairwise Apart := by
    intro start finish
    unfold between
    split
    · exact Pairwise.nil
    · exact pairwise_singleton _ _
  rw [sides, map_append, pairwise_append]
  refine ⟨hs _ _, hs _ _, fun first hb second ha => ?_⟩
  obtain ⟨left, his, rfl⟩ := mem_map.mp hb
  obtain ⟨right, hi, rfl⟩ := mem_map.mp ha
  apply apart_of_head
  intro place hit hin
  have hbe := (contains_between.mp ⟨left, his, hit⟩).2
  have hab := (contains_between.mp ⟨right, hi, hin⟩).1
  exact absurd (hbe.trans_le ((le_add_right _ _).trans hab)) (lt_irrefl place)

end Cuts

theorem tiles_cuts {source cut : Box} (hwi : Forall₂ Within cut source) :
    Tiles (cut :: cuts source cut) source := by
  induction hwi with
  | nil => exact tiles_self []
  | @cons other interval cut source hie _ ih =>
    obtain ⟨ha, hco⟩ := ih
    have hbe : ∀ side ∈ (sides interval other).map (· :: source), ∀ rest : Box,
        Apart (other :: rest) side := by
      intro side hl rest
      obtain ⟨first, hm, rfl⟩ := mem_map.mp hl
      apply apart_of_head
      intro place hi hit
      exact ((contains_sides hie).mp ⟨first, hm, hit⟩).2 hi
    obtain ⟨hf, ho⟩ := pairwise_cons.mp ha
    constructor
    · apply pairwise_cons.mpr
      constructor
      · intro piece hl
        rcases mem_append.mp hl with side | hb
        · exact hbe piece side cut
        · obtain ⟨rest, hm, rfl⟩ := mem_map.mp hb
          exact apart_of_tail _ _ (hf rest hm)
      · apply pairwise_append.mpr
        refine ⟨pairwise_sides interval other source, ?_, ?_⟩
        · exact pairwise_map.mpr (ho.imp fun ha => apart_of_tail _ _ ha)
        · intro side hm piece hb
          obtain ⟨rest, _, rfl⟩ := mem_map.mp hb
          exact (hbe side hm rest).symm
    · have hw : ∀ {place}, other.Contains place → interval.Contains place :=
        fun hc => ⟨hie.1.trans hc.1, hc.2.trans_le hie.2⟩
      have hst : ∀ {heads : List Interval} {tails : List Box} {first : Interval} {rest : Box} {place cell},
          (∃ tile ∈ heads.map (· :: rest) ++ tails.map (first :: ·), Contains tile (place :: cell)) ↔
            (∃ head ∈ heads, head.Contains place) ∧ rest.Contains cell ∨
              first.Contains place ∧ ∃ tail ∈ tails, tail.Contains cell := by
        simp only [Contains, mem_append, mem_map, or_and_right, exists_or, exists_exists_and_eq_and,
          forall₂_cons]
        grind
      rintro (_ | ⟨place, cell⟩)
      · simp [Contains, cuts]
      · have hc := hco cell
        rw [exists_mem_cons_iff] at hc ⊢
        rw [cuts, hst, contains_sides hie]
        simp only [Contains, forall₂_cons] at hc ⊢
        grind

theorem length_of_mem_cuts {source cut piece : Box} (hl : piece ∈ cuts source cut) :
    piece.length = source.length := by
  induction source generalizing cut piece with
  | nil => cases hl
  | cons interval source ih =>
    cases cut with
    | nil => cases hl
    | cons other cut =>
      rcases mem_append.mp hl with hs | hb
      · obtain ⟨first, _, rfl⟩ := mem_map.mp hs
        rfl
      · obtain ⟨rest, hm, rfl⟩ := mem_map.mp hb
        exact congrArg succ (ih hm)

theorem apart_of_any (hm : (left.zip right).any
    (fun (first, second) => min first.finish second.finish ≤ max first.start second.start) = true) :
    Apart left right := by
  intro cell hi2 hit
  induction hi2 generalizing right with
  | nil => cases hm
  | cons hin _ ih =>
    cases hit with
    | cons hi ho =>
      rw [zip_cons_cons, any_cons, Bool.or_eq_true] at hm
      rcases hm with hh | hl
      · have he := of_decide_eq_true hh
        have := hin.1
        have := hin.2
        have := hi.1
        have := hi.2
        omega
      · exact ih hl ho

theorem within_meet (hs : left.length = right.length) (hm : ∀ pair ∈ left.zip right,
      max pair.1.start pair.2.start < min pair.1.finish pair.2.finish) :
    Forall₂ Within (left.meet right) left := by
  induction left, right, hs using paired with
  | nil => exact nil
  | cons first left second right _ ih =>
    rw [zip_cons_cons, forall_mem_cons] at hm
    apply cons _ (ih hm.2)
    have hh := hm.1
    simp only [Within, Interval.meet, Interval.finish] at hh ⊢
    omega

def origin (box : Box) : Box := box.shape.map (⟨0, ·⟩)

theorem Tiles.perm_cells (hh : Tiles tiles whole) : (tiles.flatMap cells).Perm whole.cells := by
  apply (perm_ext_iff_of_nodup _ (nodup_cells whole)).mpr
  · intro cell
    simp only [mem_flatMap, mem_cells, hh.cover]
  · apply nodup_flatMap.mpr
    refine ⟨fun tile _ => nodup_cells tile, hh.apart.imp ?_⟩
    intro left right ha cell hin hi
    exact ha cell (mem_cells.mp hin) (mem_cells.mp hi)

theorem cellAt_origin (hi : offset ∈ coordinates box.shape) :
    box.origin.cellAt offset = offset := by
  induction box generalizing offset with
  | nil =>
    cases mem_coordinates.mp hi
    rfl
  | cons interval box ih =>
    cases mem_coordinates.mp hi with
    | @cons first _ rest _ _ ho =>
      show (0 + first) :: cellAt (origin box) rest = _
      rw [zero_add, ih (mem_coordinates.mpr ho)]

theorem shape_origin (box : Box) : box.origin.shape = box.shape := by
  unfold origin shape
  rw [map_map]
  exact map_id _

theorem cells_origin (box : Box) : box.origin.cells = coordinates box.shape := by
  unfold cells
  rw [shape_origin]
  conv_rhs => rw [← map_id (coordinates box.shape)]
  apply map_congr_left
  intro offset hi
  exact cellAt_origin hi

theorem contains_sizes {sizes coords : List Nat} (hi : coords ∈ coordinates sizes) :
    Contains (sizes.map (⟨0, ·⟩)) coords := by
  have hb := mem_coordinates.mp hi
  clear hi
  induction hb with
  | nil => exact nil
  | cons hf _ ih =>
    refine cons ⟨zero_le _, ?_⟩ ih
    unfold Interval.finish
    rw [zero_add]
    exact hf

theorem cells_cons (interval : Interval) (box : Box) :
    cells (interval :: box) = (range interval.width).flatMap fun step =>
      box.cells.map ((interval.start + step) :: ·) := by
  unfold cells
  show ((range interval.width).flatMap _).map _ = _
  rw [map_flatMap]
  apply flatMap_congr
  intro step _
  rw [map_map, map_map]
  rfl

variable {axis : Nat}

theorem cellAt_insertIdx {interval : Interval} (hp : box[axis]? = some interval)
    (hi : offset ∈ coordinates (shape (box.eraseIdx axis))) (step : Nat) :
    (cellAt (box.eraseIdx axis) offset).insertIdx axis (interval.start + step) =
      box.cellAt (offset.insertIdx axis step) := by
  induction axis generalizing box offset with
  | zero =>
    cases box with
    | nil => cases hp
    | cons first box =>
      obtain rfl : first = interval := Option.some.inj hp
      rfl
  | succ axis ih =>
    cases box with
    | nil => cases hp
    | cons first box =>
      cases mem_coordinates.mp hi with
      | @cons place _ offset _ _ ho =>
        exact congrArg ((first.start + place) :: ·) (ih hp (mem_coordinates.mpr ho))

theorem insertIdx_mem_coordinates {sizes : List Nat} {size : Nat} (hp : sizes[axis]? = some size)
    (hi : offset ∈ coordinates (sizes.eraseIdx axis)) {step : Nat} (hs : step < size) :
    offset.insertIdx axis step ∈ coordinates sizes := by
  induction axis generalizing sizes offset with
  | zero =>
    cases sizes with
    | nil => cases hp
    | cons first sizes =>
      obtain rfl : first = size := Option.some.inj hp
      exact mem_coordinates.mpr (cons hs (mem_coordinates.mp hi))
  | succ axis ih =>
    cases sizes with
    | nil => cases hp
    | cons first sizes =>
      cases mem_coordinates.mp hi with
      | cons hb ho =>
        have hr := ih hp (mem_coordinates.mpr ho)
        exact mem_coordinates.mpr (cons hb (mem_coordinates.mp hr))

section Fibres

variable {α : Type} [AddCommMonoid α]

theorem sum_steps (interval : Interval) (place : Nat) (total : α) [Decidable (interval.Contains place)] :
    ((range interval.width).map fun step =>
      if interval.start + step = place then total else 0).sum =
        if interval.Contains place then total else 0 := by
  by_cases hc : interval.Contains place
  · obtain ⟨ha, hb⟩ := hc
    unfold Interval.finish at hb
    have hm : place - interval.start ∈ range interval.width := by
      rw [mem_range]
      omega
    have hsa : ∀ step, interval.start + step = place ↔ step = place - interval.start := by
      intro step
      omega
    rw [if_pos ⟨ha, hb⟩]
    simp only [hsa]
    rw [Scatter.sum_map_ite nodup_range, if_pos hm]
  · rw [if_neg hc]
    apply sum_eq_zero
    intro term hl
    obtain ⟨step, hm, rfl⟩ := mem_map.mp hl
    rw [if_neg]
    rintro rfl
    exact hc ⟨Nat.le_add_right _ _, Nat.add_lt_add_left (mem_range.mp hm) _⟩

theorem sum_cells_fibre {interval : Interval} (hp : box[axis]? = some interval) (others : List Nat)
    (value : List Nat → α) [Decidable (Box.Contains (box.eraseIdx axis) others)] :
    (box.cells.map fun cell => if cell.eraseIdx axis = others then value cell else 0).sum =
      if Box.Contains (box.eraseIdx axis) others then
        ((range interval.width).map fun step =>
          value (others.insertIdx axis (interval.start + step))).sum
      else 0 := by
  classical
  induction axis generalizing box others value with
  | zero =>
    cases box with
    | nil => cases hp
    | cons first box =>
      obtain rfl : first = interval := Option.some.inj hp
      rw [cells_cons, map_flatMap, flatMap_def, sum_flatten, map_map]
      have hi : ∀ step, (((cells box).map ((first.start + step) :: ·)).map fun cell =>
          if cell.eraseIdx 0 = others then value cell else 0).sum =
            if others ∈ cells box then value ((first.start + step) :: others) else 0 := by
        intro step
        rw [map_map]
        exact Scatter.sum_map_ite (nodup_cells box) others fun rest =>
          value ((first.start + step) :: rest)
      simp only [comp_def, hi]
      by_cases hm : others ∈ cells box
      · have hc : Contains ((first :: box).eraseIdx 0) others := mem_cells.mp hm
        simp only [if_pos hm, if_pos hc]
        rfl
      · have ho : ¬ Contains ((first :: box).eraseIdx 0) others := fun hc => hm (mem_cells.mpr hc)
        rw [if_neg ho]
        simp [hm]
  | succ axis ih =>
    cases box with
    | nil => cases hp
    | cons first box =>
      rw [cells_cons, map_flatMap, flatMap_def, sum_flatten, map_map]
      cases others with
      | nil => simp [comp_def, Contains]
      | cons place others =>
        have hi : ∀ step, (((cells box).map ((first.start + step) :: ·)).map fun cell =>
            if cell.eraseIdx (axis + 1) = place :: others then value cell else 0).sum =
              if first.start + step = place then
                ((cells box).map fun rest =>
                  if rest.eraseIdx axis = others then value (place :: rest) else 0).sum
              else 0 := by
          intro step
          by_cases hh : first.start + step = place
          · subst hh
            simp [comp_def]
          · simp [comp_def, hh]
        simp only [comp_def, hi]
        rw [sum_steps, ih hp]
        have hs : Contains ((first :: box).eraseIdx (axis + 1)) (place :: others) ↔
            first.Contains place ∧ Contains (box.eraseIdx axis) others := forall₂_cons
        by_cases hh : first.Contains place
        · rw [if_pos hh]
          by_cases hb : Contains (box.eraseIdx axis) others
          · rw [if_pos hb, if_pos (hs.mpr ⟨hh, hb⟩)]
            rfl
          · rw [if_neg hb, if_neg fun hc => hb (hs.mp hc).2]
        · rw [if_neg hh, if_neg fun hc => hh (hs.mp hc).1]

end Fibres

end Box

end Eredu
