import Eredu.Parameters.ReadPlan
import Mathlib.Data.List.GetD

/-!
# A read plan tiles the region

Whatever the ranks hold, a plan that is made gives every cell of the region to
exactly one tile, each tile to the first rank that owns its cells, and to each tile
the local rectangle that holds its cells.
-/

namespace Eredu.Parameters

open Effect List Forall₂ RowMajor Box

theorem concludes_add (left right : Nat) :
    Concludes (add left right) (fun sum => sum = left + right) fun _ => True :=
  concludes_required fun _ hf => (Word.checkedAdd_eq_some.mp hf).1

theorem concludes_mul (left right : Nat) :
    Concludes (mul left right) (fun product => product = left * right) fun _ => True :=
  concludes_required fun _ hf => (Word.checkedMul_eq_some.mp hf).1

def Fits (axes : Box) (shape : List Nat) : Prop :=
  Forall₂ (fun axis size => axis.width ≠ 0 ∧ axis.finish ≤ size) axes shape

theorem concludes_validateAxis (axis : Interval) (size : Nat) :
    Concludes (validateAxis axis size) (fun _ => axis.width ≠ 0 ∧ axis.finish ≤ size)
      fun _ => True := by
  unfold validateAxis
  split
  · trivial
  rename_i hs
  apply (concludes_add _ _).bind
  rintro finish rfl
  split
  · trivial
  · next hi => exact ⟨hs, not_lt.mp hi⟩

theorem concludes_validateAxes {axes : Box} {source : List Nat} (hr : axes.length = source.length) :
    Concludes (validateAxes axes source) (fun _ => Fits axes source) fun _ => True := by
  induction axes, source, hr using paired with
  | nil => exact nil
  | cons axis axes size source _ ih =>
    apply (concludes_validateAxis axis size).bind
    intro _ hf
    exact ih.mono fun _ ho => cons hf ho

theorem concludes_elements {shape : List Nat} (hn : ∀ size ∈ shape, size ≠ 0) :
    Concludes (elements shape) (fun count => count = shape.prod) fun _ => True := by
  have hk : shape.filter (· ≠ 0) = shape := by
    apply filter_eq_self.mpr
    intro size hl
    exact decide_eq_true (hn size hl)
  have hw : shape.contains 0 = false := by
    rw [Bool.eq_false_iff]
    intro hc
    exact hn 0 (contains_iff_mem.mp hc) rfl
  unfold elements
  rw [hk]
  apply (concludes_checkedProduct shape).bind
  rintro total ⟨rfl, -⟩
  rw [hw]
  exact rfl

theorem zipWith_mk (box : Box) : zipWith Interval.mk box.starts box.shape = box := by
  induction box with
  | nil => rfl
  | cons interval box ih => exact congrArg (interval :: ·) ih

@[simp]
theorem axes_regionOf (box : Box) : (regionOf box).axes = box := zipWith_mk box

theorem regionOf_axes {region : ParameterRegion} (hr : region.starts.length = region.shape.length) :
    regionOf region.axes = region := by
  obtain ⟨starts, shape⟩ := region
  induction starts, shape, hr using paired with
  | nil => rfl
  | cons start starts size shape _ ih =>
    obtain ⟨hf, hs⟩ := (ParameterRegion.mk.injEq _ _ _ _).mp ih
    show ParameterRegion.mk (start :: _) (size :: _) = _
    congr 1
    · exact congrArg (start :: ·) hf
    · exact congrArg (size :: ·) hs

theorem Fits.shape_ne_zero {axes : Box} {shape : List Nat} (hfi : Fits axes shape) :
    ∀ size ∈ axes.shape, size ≠ 0 := by
  induction hfi with
  | nil => nofun
  | cons hf _ ih => exact forall_mem_cons.mpr ⟨hf.1, ih⟩

theorem concludes_validate (region : ParameterRegion) (source : List Nat) :
    Concludes (region.validate source)
      (fun count => regionOf region.axes = region ∧ Fits region.axes source ∧
        count = region.shape.prod) fun _ => True := by
  unfold ParameterRegion.validate
  split
  · trivial
  rename_i ranks
  have hs : region.starts.length = source.length := not_not.mp (not_or.mp ranks).1
  have hsi : region.shape.length = source.length := not_not.mp (not_or.mp ranks).2
  have hsa := regionOf_axes (hs.trans hsi.symm)
  have hr : region.axes.length = source.length := by
    rw [ParameterRegion.axes, length_zipWith, hs, hsi, min_self]
  apply (concludes_validateAxes hr).bind
  intro _ hf
  have hsh : region.axes.shape = region.shape := congrArg ParameterRegion.shape hsa
  apply (concludes_elements (hsh ▸ hf.shape_ne_zero)).mono
  rintro count rfl
  exact ⟨hsa, hf, rfl⟩

variable (axis : ComponentCoordinateMap)

def AxisMatches (interval source destination : Interval) : Prop :=
  source.width = destination.width ∧ ∀ step < destination.width,
    axis.localToGlobal (source.start + step) = some (interval.start + (destination.start + step))

/-- Runs that match, among them one for each coordinate of the interval that the axis holds at one of
some places. -/
structure RunsOf (interval : Interval) (places : Nat → Prop) (runs : List Run) : Prop where
  matching : ∀ run ∈ runs, AxisMatches axis interval run.held run.filled
  complete : ∀ place, places place → ∀ global, axis.localToGlobal place = some global →
    interval.Contains global → ∃ run ∈ runs, run.filled.Contains (global - interval.start)

variable {σ : Type} {reserve : Nat → Effect σ ParameterError Unit} {axis : ComponentCoordinateMap}
  {interval : Interval}

theorem returns_extendRuns {count : Nat}
    {runs : List Run} (maxFragments : Nat) (hh : RunsOf axis interval (· < count) runs)
    {global : Nat} (hhe : axis.localToGlobal count = some global) :
    (extendRuns reserve maxFragments interval runs (global, count)).Returns
      (RunsOf axis interval (· < count + 1)) := by
  have he : ∀ longer : List Run,
      (∀ run ∈ longer, AxisMatches axis interval run.held run.filled) →
      (∀ place, (∃ run ∈ runs, run.filled.Contains place) →
        ∃ run ∈ longer, run.filled.Contains place) →
      (interval.Contains global → ∃ run ∈ longer, run.filled.Contains (global - interval.start)) →
      RunsOf axis interval (· < count + 1) longer := by
    intro longer hm hg hla
    refine ⟨hm, fun place hbe other hf hi => ?_⟩
    rcases Nat.lt_succ_iff_lt_or_eq.mp hbe with hea | rfl
    · exact hg _ (hh.complete place hea other hf hi)
    · rw [hhe] at hf
      cases hf
      exact hla hi
  unfold extendRuns
  dsimp only
  split
  · next hi =>
    have hfr : RunsOf axis interval (· < count + 1)
        (runs ++ [⟨count, global - interval.start, 1⟩]) := by
      apply he
      · rw [forall_mem_append, forall_mem_singleton]
        refine ⟨hh.matching, rfl, fun step hs => ?_⟩
        cases Nat.lt_one_iff.mp hs
        show axis.localToGlobal count = some (interval.start + (global - interval.start))
        rw [Nat.add_sub_cancel' hi.1]
        exact hhe
      · rintro place ⟨run, old, hc⟩
        exact ⟨run, mem_append_left _ old, hc⟩
      · intro _
        exact ⟨_, mem_append_right _ (mem_singleton_self _), Nat.le_refl _, Nat.lt_succ_self _⟩
    split
    · next previous hf =>
      obtain ⟨hla, hj⟩ := Option.filter_eq_some_iff.mp hf
      obtain ⟨hp, hd⟩ := of_decide_eq_true hj
      obtain ⟨initial, rfl⟩ := getLast?_eq_some_iff.mp hla
      rw [dropLast_concat]
      apply returns_pure
      apply he
      · have hm := hh.matching
        rw [forall_mem_append, forall_mem_singleton] at hm ⊢
        refine ⟨hm.1, rfl, fun step hs => ?_⟩
        rcases Nat.lt_succ_iff_lt_or_eq.mp hs with hea | rfl
        · exact hm.2.2 step hea
        · show axis.localToGlobal (previous.place + previous.length) =
            some (interval.start + (previous.destination + previous.length))
          rw [hp, hd, Nat.add_sub_cancel' hi.1]
          exact hhe
      · rintro place ⟨run, old, hc⟩
        rcases mem_append.mp old with hb | hsa
        · exact ⟨run, mem_append_left _ hb, hc⟩
        · rw [mem_singleton.mp hsa] at hc
          refine ⟨_, mem_append_right _ (mem_singleton_self _), hc.1, ?_⟩
          exact hc.2.trans (Nat.lt_succ_self _)
      · intro _
        refine ⟨_, mem_append_right _ (mem_singleton_self _), ?_, ?_⟩
        · exact hd ▸ Nat.le_add_right _ _
        · rw [← hd]
          exact Nat.lt_succ_self _
    · split
      · exact returns_fail _
      · exact returns_after fun _ => returns_pure hfr
  · next ho =>
    apply returns_pure
    exact he runs hh.matching (fun _ => id) fun hi => absurd hi ho

theorem returns_axisRuns (maxFragments : Nat) (axis : ComponentCoordinateMap) (interval : Interval) :
    (axisRuns reserve maxFragments axis interval).Returns (RunsOf axis interval fun _ => True) := by
  unfold axisRuns
  split
  · next start finish hs =>
    have ht : ∀ place, axis.localToGlobal place =
        if place < finish - start then some (start + place) else none := by
      intro place
      rw [ComponentCoordinateMap.localToGlobal, hs]
    dsimp only
    split
    · next hso =>
      apply returns_after
      intro _
      apply returns_pure
      constructor
      · intro run listed
        rw [mem_singleton.mp listed]
        refine ⟨rfl, fun step hsm => ?_⟩
        simp only [Run.held, Run.filled, ht] at hsm ⊢
        rw [if_pos (by omega)]
        congr 1
        omega
      · intro place _ global hf hi
        rw [ht] at hf
        split at hf
        · next hb =>
          cases hf
          refine ⟨_, mem_singleton_self _, ?_⟩
          simp only [Run.filled, Interval.Contains, Interval.finish] at hi ⊢
          omega
        · cases hf
    · next hn =>
      apply returns_pure
      refine ⟨forall_mem_nil _, fun place _ global hf hi => ?_⟩
      rw [ht] at hf
      split at hf
      · next hb =>
        cases hf
        exfalso
        simp only [Interval.Contains] at hi
        omega
      · cases hf
  · next listed hs =>
    have ht : ∀ place, axis.localToGlobal place = listed[place]? := by
      intro place
      rw [ComponentCoordinateMap.localToGlobal, hs]
    refine (returns_foldlM_zipIdx (fun count => RunsOf axis interval (· < count))
      (fun _ _ _ hf hh => returns_extendRuns maxFragments hh ((ht _).trans hf))
      (by exact ⟨forall_mem_nil _, fun _ hn => absurd hn (Nat.not_lt_zero _)⟩)).mono ?_
    refine fun runs hh => ⟨hh.matching, fun place _ global hf hi => ?_⟩
    exact hh.complete place (List.getElem?_eq_some_iff.mp ((ht place).symm.trans hf)).1 global hf hi

abbrev Axes := List (ComponentCoordinateMap × Interval)

/-- A local rectangle that holds a rectangle of the region, axis by axis. -/
inductive Corresponds : Axes → Box → Box → Prop
  | nil : Corresponds [] [] []
  | cons {axis : ComponentCoordinateMap × Interval} {axes : Axes} {held filled : Interval}
      {source destination : Box} (first : AxisMatches axis.1 axis.2 held filled)
      (others : Corresponds axes source destination) :
      Corresponds (axis :: axes) (held :: source) (filled :: destination)

variable {axes : Axes}

theorem Corresponds.length {source destination : Box} (hc : Corresponds axes source destination) :
    destination.length = axes.length ∧ source.length = axes.length := by
  induction hc with
  | nil => exact ⟨rfl, rfl⟩
  | cons _ _ ih => exact ⟨congrArg Nat.succ ih.1, congrArg Nat.succ ih.2⟩

def OwnsCell (axes : Axes) (cell : List Nat) : Prop :=
  Forall₂ (fun axis place => ∃ held, axis.1.localToGlobal held = some (axis.2.start + place))
    axes cell

def InRegion (axes : Axes) (cell : List Nat) : Prop :=
  Forall₂ (fun axis place => place < axis.2.width) axes cell

def AllRuns (axes : Axes) (runs : List (List Run)) : Prop :=
  Forall₂ (fun axis runs => RunsOf axis.1 axis.2 (fun _ => True) runs) axes runs

variable (runs : List (List Run))

def chosen (numbers : List Nat) : List Run :=
  zipWith (fun runs number => runs.getD number ⟨0, 0, 0⟩) runs numbers

theorem corresponds_chosen {runs : List (List Run)} (all : AllRuns axes runs) {numbers : List Nat}
    (hi : numbers ∈ coordinates (runs.map length)) :
    Corresponds axes ((chosen runs numbers).map Run.held) ((chosen runs numbers).map Run.filled) := by
  induction all generalizing numbers with
  | nil => exact Corresponds.nil
  | cons hf _ ih =>
    cases mem_coordinates.mp hi with
    | cons hs ho =>
      apply Corresponds.cons
      · apply hf.matching
        dsimp only
        rw [getD_eq_getElem _ _ hs]
        exact getElem_mem hs
      · exact ih (mem_coordinates.mpr ho)

theorem exists_chosen {runs : List (List Run)} (all : AllRuns axes runs) {cell : List Nat}
    (hi : InRegion axes cell) (ho : OwnsCell axes cell) :
    ∃ numbers ∈ coordinates (runs.map length),
      Box.Contains ((chosen runs numbers).map Run.filled) cell := by
  induction all generalizing cell with
  | nil =>
    cases ho
    exact ⟨[], mem_coordinates.mpr nil, nil⟩
  | cons hf _ ih =>
    cases ho with
    | cons hhe hot =>
      cases hi with
      | cons hb hw =>
        obtain ⟨numbers, hm, hc⟩ := ih hw hot
        obtain ⟨place, hfo⟩ := hhe
        obtain ⟨run, hl, hh⟩ := hf.complete place trivial _ hfo
          ⟨Nat.le_add_right _ _, Nat.add_lt_add_left hb _⟩
        obtain ⟨number, hs, rfl⟩ := getElem_of_mem hl
        rw [Nat.add_sub_cancel_left] at hh
        refine ⟨number :: numbers, mem_coordinates.mpr ?_, ?_⟩
        · exact cons hs (mem_coordinates.mp hm)
        · apply cons _ hc
          dsimp only
          rw [getD_eq_getElem _ _ hs]
          exact hh

theorem returns_allRuns {maxFragments : Nat} {good : ComponentCoordinateMap × Interval → List Run → Prop}
    (he : ∀ axis, (axisRuns reserve maxFragments axis.1 axis.2).Returns (good axis)) (axes : Axes) :
    (allRuns reserve maxFragments axes).Returns fun result =>
      Forall₂ good axes result.1 ∧ result.2 = (result.1.map length).prod := by
  apply returns_foldlM fun done (result : List (List Run) × Nat) =>
    Forall₂ good done result.1 ∧ result.2 = (result.1.map length).prod
  · rintro done axis rest ⟨before, count⟩ _ ⟨all, hc⟩
    change count = (before.map length).prod at hc
    subst hc
    apply (he axis).bind
    intro runs hh
    apply (returns_ofResult (concludes_mul _ _)).bind
    rintro total rfl
    split
    · exact returns_fail _
    apply returns_pure
    refine ⟨?_, ?_⟩
    · exact rel_append all (cons hh nil)
    · rw [map_append, prod_append, map_singleton, prod_singleton]
  · exact ⟨nil, rfl⟩

/-- Fragments that correspond, among them one for each cell that the rank owns. -/
structure Projects (axes : Axes) (fragments : List ParameterRegionFragment) : Prop where
  corresponds : ∀ fragment ∈ fragments, Corresponds axes fragment.source fragment.destination
  complete : ∀ cell, InRegion axes cell → OwnsCell axes cell →
    ∃ fragment ∈ fragments, fragment.destination.Contains cell

theorem not_owned_of_misses
    (hn : misses axis interval = true) {place : Nat} (hb : place < interval.width) (held : Nat) :
    axis.localToGlobal held ≠ some (interval.start + place) := by
  intro hf
  unfold misses at hn
  unfold ComponentCoordinateMap.localToGlobal at hf
  split at hf
  · next start finish hs =>
    rw [hs] at hn
    have ha := of_decide_eq_true hn
    split at hf
    · next hi =>
      have hsa := Option.some.inj hf
      simp only [Interval.finish] at ha
      omega
    · cases hf
  · next listed hs =>
    rw [hs, Bool.not_eq_true', any_eq_false] at hn
    apply hn _ (mem_of_getElem? hf)
    rw [Bool.and_eq_true, decide_eq_true_eq, decide_eq_true_eq]
    exact ⟨Nat.le_add_right _ _, Nat.add_lt_add_left hb _⟩

theorem projects_nil (hn : axes.any (fun axis => misses axis.1 axis.2) = true) :
    Projects axes [] := by
  refine ⟨nofun, fun cell hi ho => ?_⟩
  exfalso
  induction ho with
  | nil => cases hn
  | cons hf _ ih =>
    cases hi with
    | cons hb hw =>
      rw [any_cons, Bool.or_eq_true] at hn
      rcases hn with hh | hla
      · obtain ⟨held, hfo⟩ := hf
        exact not_owned_of_misses hh hb held hfo
      · exact ih hla hw

theorem map_fragmentAt : (range (runs.map length).prod).map (fragmentAt runs) =
      (coordinates (runs.map length)).map fun numbers =>
        ⟨(chosen runs numbers).map Run.held, (chosen runs numbers).map Run.filled⟩ := by
  rw [← map_unravel_range, map_map]
  rfl

theorem returns_projectRegion (map : ParameterCoordinateMap) (region : ParameterRegion)
    (maxFragments : Nat) : (projectRegion reserve map region maxFragments).Returns
      (Projects (map.axes.zip region.axes)) := by
  apply returns_after
  intro _
  split
  · exact returns_fail _
  apply returns_after
  intro _
  dsimp only
  split
  · next hn => exact returns_pure (projects_nil hn)
  apply (returns_allRuns (fun axis => returns_axisRuns maxFragments axis.1 axis.2) _).bind
  rintro ⟨runs, count⟩ ⟨all, hco⟩
  apply returns_after
  intro _
  apply returns_pure
  rw [hco, map_fragmentAt]
  constructor
  · intro fragment hl
    obtain ⟨numbers, hi, rfl⟩ := mem_map.mp hl
    exact corresponds_chosen all hi
  · intro cell hi ho
    obtain ⟨numbers, hm, hc⟩ := exists_chosen all hi ho
    exact ⟨_, mem_map_of_mem hm, hc⟩

theorem corresponds_restrict {source destination selected : Box}
    (hc : Corresponds axes source destination) (hw : Forall₂ Interval.Within selected destination) :
    Corresponds axes (zipWith (fun (source, whole) part =>
      (⟨source.start + (part.start - whole.start), part.width⟩ : Interval))
        (source.zip destination) selected) selected := by
  induction hc generalizing selected with
  | nil =>
    cases hw
    exact Corresponds.nil
  | @cons axis axes held filled source destination hf _ ih =>
    cases hw with
    | @cons part _ selected _ hi ho =>
      apply Corresponds.cons _ (ih ho)
      refine ⟨rfl, fun step hs => ?_⟩
      obtain ⟨ha, hb⟩ := hi
      unfold Interval.finish at hb
      have hh := hf.2 (part.start - filled.start + step) (by omega)
      rw [← add_assoc] at hh
      rw [hh]
      congr 2
      omega

theorem returns_restrictDestination {fragment : ParameterRegionFragment}
    (hc : Corresponds axes fragment.source fragment.destination) (selected : Box) :
    (fragment.restrictDestination reserve selected).Returns fun restricted =>
      restricted.destination = selected ∧
        Corresponds axes restricted.source restricted.destination := by
  unfold ParameterRegionFragment.restrictDestination
  split
  · exact returns_fail _
  rename_i hr
  split
  · exact returns_fail _
  rename_i hi
  apply returns_after
  intro _
  apply returns_pure
  refine ⟨rfl, corresponds_restrict hc ?_⟩
  rw [forall₂_iff_zip]
  refine ⟨not_not.mp hr, fun {part whole} hl => ?_⟩
  rw [Bool.not_eq_true, any_eq_false] at hi
  have hh := hi _ hl
  simp only [Bool.or_eq_true, decide_eq_true_eq, not_or, not_lt] at hh
  exact ⟨hh.1.2, hh.2⟩

theorem returns_pushPiece (max rank : Nat) (piece : Interval → Box) (start finish : Nat)
    (output : List Box) :
    (pushPiece reserve max rank piece start finish output).Returns fun pushed =>
      pushed = output ++ (between start finish).map piece := by
  unfold pushPiece between
  split
  · exact returns_pure (append_nil _).symm
  split
  · exact returns_fail _
  · exact returns_after fun _ => returns_pure rfl

theorem returns_subtractFrom (max : Nat) (done source cut : Box) (output : List Box) :
    (subtractFrom reserve max done source cut output).Returns fun pieces =>
      pieces = output ++ (cuts source cut).map (done ++ ·) := by
  induction source generalizing done cut output with
  | nil => exact returns_pure (append_nil _).symm
  | cons axis source ih =>
    cases cut with
    | nil => exact returns_pure (append_nil _).symm
    | cons other cut =>
      apply (returns_pushPiece _ _ _ _ _ _).bind
      rintro before rfl
      apply (returns_pushPiece _ _ _ _ _ _).bind
      rintro both rfl
      apply (ih _ _ _).mono
      rintro pieces rfl
      simp [cuts, sides, Function.comp_def]

theorem returns_intersect (left right : Box) : (intersect reserve left right).Returns fun met =>
      (met = none ∧ (left.zip right).any (fun (a, b) => min a.finish b.finish ≤ max a.start b.start)) ∨
      (met = some (left.meet right) ∧
        ∀ pair ∈ left.zip right, max pair.1.start pair.2.start < min pair.1.finish pair.2.finish) := by
  unfold intersect
  split
  · next ha => exact returns_pure (.inl ⟨rfl, ha⟩)
  rename_i hm
  apply returns_after
  intro _
  apply returns_pure
  refine .inr ⟨rfl, fun pair hl => ?_⟩
  rw [Bool.not_eq_true, any_eq_false] at hm
  have hh := hm pair hl
  rw [decide_eq_true_eq, not_le] at hh
  exact hh

section Loops

variable (ranks : List (Option ParameterCoordinateMap)) (region : Box)
  (projection : Option ParameterProjection) (outputShape : List Nat)

def Unowned (turn : Nat) (cell : List Nat) : Prop :=
  ∀ rank < turn, ∀ map, ranks[rank]? = some (some map) → ¬ OwnsCell (map.axes.zip region) cell

variable (fragment : PartitionParameterReadFragment)

/-- A tile that is supplied by the first rank that owns it, from the rectangle that holds it. -/
def Supplied : Prop :=
  ∃ map, ranks[fragment.rank]? = some (some map) ∧
    Corresponds (map.axes.zip region) fragment.source.source fragment.source.destination ∧
    fragment.destination = destinationOf projection fragment.source.destination ∧
    Fits fragment.destination outputShape ∧
    ∀ cell, fragment.source.destination.Contains cell → Unowned ranks region fragment.rank cell

variable (fragments : List PartitionParameterReadFragment)

def countOf (rank : Nat) : Nat :=
  ((fragments.filter (·.rank = rank)).map (·.destination.shape.prod)).sum

/-- The state of the planner: `pending` are the parts that a loop has not come to yet, and every cell
that is left over is free. -/
structure Covers (planning : Planning) (pending : List Box) (free : List Nat → Prop) : Prop where
  tiles : Box.Tiles (planning.fragments.map (·.source.destination) ++
    (planning.remaining ++ pending)) region.origin
  supplied : ∀ fragment ∈ planning.fragments, Supplied ranks region projection outputShape fragment
  left : ∀ box ∈ planning.remaining ++ pending, box.length = region.length ∧
    ∀ cell, box.Contains cell → free cell
  counts : planning.counts.length = ranks.length ∧
    ∀ rank, planning.counts.getD rank 0 = countOf planning.fragments rank

variable {ranks region projection outputShape}

theorem countOf_concat (rank : Nat) :
    countOf (fragments ++ [fragment]) rank =
      countOf fragments rank + if fragment.rank = rank then fragment.destination.shape.prod else 0 := by
  unfold countOf
  rw [filter_append, map_append, sum_append]
  congr 1
  by_cases hs : fragment.rank = rank <;> simp [hs]

variable {planning : Planning} {free : List Nat → Prop} {pending : List Box}

theorem Covers.take {uncovered cut : Box}
    (hc : Covers ranks region projection outputShape planning (uncovered :: pending) free)
    (hw : Forall₂ Interval.Within cut uncovered) {fragment : PartitionParameterReadFragment}
    (his : fragment.source.destination = cut)
    (hs : Supplied ranks region projection outputShape fragment) :
    Covers ranks region projection outputShape ⟨planning.counts.set fragment.rank
          (planning.counts.getD fragment.rank 0 + fragment.destination.shape.prod),
        planning.fragments ++ [fragment], planning.remaining ++ cuts uncovered cut⟩
      pending free := by
  have hp := tiles_cuts hw
  have hhe := hc.left uncovered (mem_append_right _ mem_cons_self)
  have hin : fragment.rank < planning.counts.length := by
    obtain ⟨map, hpr, _⟩ := hs
    rw [hc.counts.1]
    exact (List.getElem?_eq_some_iff.mp hpr).1
  refine ⟨?_, ?_, ?_, ?_, ?_⟩
  · -- the part comes to the front, is replaced, and its pieces go to their places
    generalize hi : planning.fragments.map (·.source.destination) = tiles
    have hh := hc.tiles
    rw [hi] at hh
    have hf : (tiles ++ (planning.remaining ++ uncovered :: pending)).Perm
        (uncovered :: (tiles ++ planning.remaining ++ pending)) := by
      rw [← append_assoc]
      exact perm_middle
    have hb : (cut :: cuts uncovered cut ++ (tiles ++ planning.remaining ++ pending)).Perm
        (tiles ++ [cut] ++ (planning.remaining ++ cuts uncovered cut ++ pending)) := by
      rw [perm_iff_count]
      intro box
      simp only [count_append, count_cons, count_nil]
      omega
    rw [map_append, map_singleton, hi, his]
    exact ((hh.perm hf).refine hp).perm hb
  · exact forall_mem_append.mpr ⟨hc.supplied, forall_mem_singleton.mpr hs⟩
  · have hle := hc.left
    rw [forall_mem_append, forall_mem_cons] at hle
    rw [forall_mem_append, forall_mem_append]
    refine ⟨⟨hle.1, fun box hpi => ?_⟩, hle.2.2⟩
    refine ⟨(length_of_mem_cuts hpi).trans hhe.1, fun cell hco => hhe.2 cell ?_⟩
    exact (hp.cover cell).mpr ⟨box, mem_cons_of_mem _ hpi, hco⟩
  · rw [length_set]
    exact hc.counts.1
  · intro rank
    rw [countOf_concat, ← hc.counts.2 rank]
    by_cases hsa : fragment.rank = rank
    · subst hsa
      rw [if_pos rfl, getD_eq_getElem?_getD, getElem?_set_self hin]
      rfl
    · rw [if_neg hsa, getD_eq_getElem?_getD, getElem?_set_ne hsa,
        ← getD_eq_getElem?_getD, add_zero]

variable {maxFragments turn : Nat} {source : ParameterRegionFragment} {map : ParameterCoordinateMap}

theorem returns_coverPart (hpr : ranks[turn]? = some (some map))
    (hco : Corresponds (map.axes.zip region) source.source source.destination)
    (hr : map.axes.length = region.length) (hu : ∀ cell, free cell → Unowned ranks region turn cell)
    {uncovered : Box}
    (hc : Covers ranks region projection outputShape planning (uncovered :: pending) free)
    (ha : ∀ box ∈ planning.remaining, box.Apart source.destination) :
    (coverPart reserve projection outputShape maxFragments turn source planning uncovered).Returns
      fun next => Covers ranks region projection outputShape next pending free ∧
        ∀ box ∈ next.remaining, box.Apart source.destination := by
  have hs : uncovered.length = source.destination.length := by
    have hh := (hc.left uncovered (mem_append_right _ mem_cons_self)).1
    rw [hh, hco.length.1, length_zip, hr, min_self]
  apply (returns_intersect uncovered source.destination).bind
  rintro met (⟨rfl, hmi⟩ | ⟨rfl, hme⟩)
  · dsimp only
    split
    · exact returns_fail _
    apply returns_after
    intro _
    apply returns_pure
    refine ⟨⟨?_, hc.supplied, ?_, hc.counts⟩, ?_⟩
    · simpa using hc.tiles
    · simpa only [append_assoc, cons_append, nil_append] using hc.left
    · exact forall_mem_append.mpr ⟨ha, forall_mem_singleton.mpr (apart_of_any hmi)⟩
  · dsimp only
    split
    · exact returns_fail _
    apply returns_after
    intro _
    apply (returns_restrictDestination hco _).bind
    rintro selected ⟨hi, hm⟩
    apply (returns_ofResult (concludes_validate _ _)).bind
    rintro count ⟨_, hin, his⟩
    rw [axes_regionOf] at hin
    apply (returns_ofResult (concludes_add _ _)).bind
    rintro total rfl
    apply (returns_subtractFrom _ [] _ _ _).bind
    rintro next rfl
    apply returns_pure
    have hw := within_meet hs hme
    have hp := tiles_cuts hw
    have hh := hc.left uncovered (mem_append_right _ mem_cons_self)
    have hps : (cuts uncovered (uncovered.meet source.destination)).map ([] ++ ·) =
        cuts uncovered (uncovered.meet source.destination) := map_id _
    rw [hps, his]
    constructor
    · have hsu : Supplied ranks region projection outputShape
          ⟨turn, selected, destinationOf projection (uncovered.meet source.destination)⟩ := by
        refine ⟨map, hpr, hm, by rw [hi], hin, fun cell hcs => ?_⟩
        rw [hi] at hcs
        apply hu cell
        exact hh.2 cell ((contains_meet hs).mp hcs).1
      exact hc.take hw hi hsu
    · refine forall_mem_append.mpr ⟨ha, fun box hpi cell hie hi2 => ?_⟩
      have hid := (hp.cover cell).mpr ⟨box, mem_cons_of_mem _ hpi, hie⟩
      exact (pairwise_cons.mp hp.apart).1 box hpi cell ((contains_meet hs).mpr ⟨hid, hi2⟩) hie

theorem Covers.weaken {weaker : List Nat → Prop}
    (hc : Covers ranks region projection outputShape planning pending free)
    (hi : ∀ cell, region.origin.Contains cell → free cell → weaker cell) :
    Covers ranks region projection outputShape planning pending weaker := by
  refine ⟨hc.tiles, hc.supplied, fun box hl => ?_, hc.counts⟩
  obtain ⟨hr, free⟩ := hc.left box hl
  refine ⟨hr, fun cell hco => hi cell ?_ (free cell hco)⟩
  exact (hc.tiles.cover cell).mpr ⟨box, mem_append_right _ hl, hco⟩

theorem returns_coverFragment (hp : ranks[turn]? = some (some map))
    (hc2 : Corresponds (map.axes.zip region) source.source source.destination)
    (hr : map.axes.length = region.length) (hu : ∀ cell, free cell → Unowned ranks region turn cell)
    (hco : Covers ranks region projection outputShape planning [] free) :
    (coverFragment reserve projection outputShape maxFragments turn planning source).Returns
      fun next => Covers ranks region projection outputShape next []
        fun cell => free cell ∧ ¬ source.destination.Contains cell := by
  -- the invariant of the loop: the parts that it has not come to are pending
  refine (returns_foldlM (fun done next => ∀ rest, planning.remaining = done ++ rest →
    Covers ranks region projection outputShape next rest free ∧
      ∀ box ∈ next.remaining, box.Apart source.destination) ?_ ?_).bind fun next hh => ?_
  · intro done uncovered rest current hw hh
    obtain ⟨hc, ha⟩ := hh (uncovered :: rest) hw
    apply (returns_coverPart hp hc2 hr hu hc ha).mono
    intro next hs others hag
    rw [hw, append_assoc, append_cancel_left_eq] at hag
    cases hag
    exact hs
  · rintro rest rfl
    exact ⟨⟨by simpa using hco.tiles, hco.supplied, by simpa using hco.left, hco.counts⟩, nofun⟩
  · obtain ⟨hc, ha⟩ := hh [] (append_nil _).symm
    split
    · exact returns_fail _
    apply returns_pure
    refine ⟨hc.tiles, hc.supplied, fun box hl => ?_, hc.counts⟩
    obtain ⟨hlh, free⟩ := hc.left box hl
    rw [append_nil] at hl
    exact ⟨hlh, fun cell hcs => ⟨free cell hcs, ha box hl cell hcs⟩⟩

theorem inRegion_of_origin {axes : List ComponentCoordinateMap} (hr : axes.length = region.length)
    {cell : List Nat} (hc : region.origin.Contains cell) : InRegion (axes.zip region) cell := by
  induction axes, region, hr using paired generalizing cell with
  | nil =>
    cases hc
    exact nil
  | cons axis axes interval region _ ih =>
    cases hc with
    | cons hf ho => exact cons (by simpa [Interval.finish] using hf.2) (ih ho)

theorem returns_coverRank {globalShape : List Nat} {selected : ParameterRegion}
    {coordinates : Option ParameterCoordinateMap} (hpr : ranks[turn]? = some coordinates)
    (hfi : Fits selected.axes globalShape)
    (hc : Covers ranks selected.axes projection outputShape planning []
      (Unowned ranks selected.axes turn)) :
    (coverRank reserve globalShape selected projection outputShape maxFragments planning
      (coordinates, turn)).Returns fun next =>
        Covers ranks selected.axes projection outputShape next []
            (Unowned ranks selected.axes (turn + 1)) ∧
          ∀ map, coordinates = some map → map.globalShape = globalShape := by
  have hla : ∀ cell, (∀ map, coordinates = some map → ¬ OwnsCell (map.axes.zip selected.axes) cell) →
      Unowned ranks selected.axes turn cell → Unowned ranks selected.axes (turn + 1) cell := by
    intro cell hn hb rank hbe map hf
    rcases Nat.lt_succ_iff_lt_or_eq.mp hbe with he | rfl
    · exact hb rank he map hf
    · rw [hpr] at hf
      exact hn map (Option.some.inj hf)
  unfold coverRank
  split
  · next rank hse =>
    cases hse
    apply returns_pure
    refine ⟨hc.weaken fun cell _ hb => hla cell (fun map hab => by cases hab) hb, ?_⟩
    rintro map ⟨⟩
  · next map rank hse =>
    cases hse
    split
    · exact returns_fail _
    rename_i hsa
    have hs : ∀ other, some map = some other → other.globalShape = globalShape := by
      rintro _ ⟨⟩
      exact not_not.mp hsa
    have ha : map.axes.length = selected.axes.length := by
      rw [hfi.length_eq, ← hs map rfl, map.counts, length_map]
    split
    · next hno =>
      apply returns_pure
      refine ⟨⟨hc.tiles, hc.supplied, fun box hl => ?_, hc.counts⟩, hs⟩
      rw [hno] at hl
      cases hl
    · apply (returns_projectRegion map selected maxFragments).bind
      intro projected hp
      refine (returns_foldlM (fun (done : List ParameterRegionFragment) next =>
        Covers ranks selected.axes projection outputShape next [] fun cell =>
          Unowned ranks selected.axes turn cell ∧
            ∀ fragment ∈ done, ¬ fragment.destination.Contains cell) ?_ ?_).mono ?_
      · intro done source rest current hw hco
        have hl : source ∈ projected := by
          rw [hw]
          exact mem_append_right _ mem_cons_self
        apply (returns_coverFragment hpr (hp.corresponds source hl) ha
          (fun _ hfr => hfr.1) hco).mono
        intro next hag
        apply hag.weaken
        rintro cell _ ⟨⟨hb, hap⟩, ho⟩
        exact ⟨hb, forall_mem_append.mpr ⟨hap, forall_mem_singleton.mpr ho⟩⟩
      · exact hc.weaken fun cell _ hb => ⟨hb, nofun⟩
      · intro next hco
        refine ⟨hco.weaken ?_, hs⟩
        rintro cell hi ⟨hb, ho⟩
        apply hla cell _ hb
        rintro _ ⟨⟩ how
        obtain ⟨fragment, hl, hcs⟩ := hp.complete cell (inRegion_of_origin ha hi) how
        exact ho fragment hl hcs

variable (globalShape : List Nat) (selected : ParameterRegion)

structure Planned
    (projection : Option ParameterProjection) (ranks : List (Option ParameterCoordinateMap))
    (plan : PartitionParameterReadPlan) : Prop where
  fits : Fits selected.axes globalShape
  paired : regionOf selected.axes = selected
  shapes : ∀ (rank : Nat) (map : ParameterCoordinateMap), ranks[rank]? = some (some map) →
    map.globalShape = globalShape
  shape : resultShape globalShape selected projection = .ok plan.outputShape
  projecting : plan.projection = projection.isSome
  tiles : Box.Tiles (plan.fragments.map (·.source.destination)) selected.axes.origin
  supplied : ∀ fragment ∈ plan.fragments, Supplied ranks selected.axes projection plan.outputShape fragment
  counts : plan.counts.length = ranks.length ∧
    ∀ rank, plan.counts.getD rank 0 = countOf plan.fragments rank

theorem returns_new
    (projection : Option ParameterProjection) (ranks : List (Option ParameterCoordinateMap))
    (maxFragments : Nat) :
    (PartitionParameterReadPlan.new reserve globalShape selected projection ranks
      maxFragments).Returns (Planned globalShape selected projection ranks) := by
  apply (returns_ofResult (concludes_validate selected globalShape)).bind
  rintro count ⟨hpa, hfi, -⟩
  split
  · exact returns_fail _
  apply returns_after
  intro _
  apply (returns_ofResult (concludes_self _)).bind
  intro outputShape hsh
  refine (returns_foldlM_zipIdx (fun count next =>
    Covers ranks selected.axes projection outputShape next []
        (Unowned ranks selected.axes count) ∧
      ∀ rank < count, ∀ map, ranks[rank]? = some (some map) → map.globalShape = globalShape)
    ?_ ?_).bind ?_
  · rintro coordinates count planning hf ⟨hc, hs⟩
    apply (returns_coverRank hf hfi hc).mono
    rintro next ⟨hco, hsa⟩
    refine ⟨hco, fun rank hb map hp => ?_⟩
    rcases Nat.lt_succ_iff_lt_or_eq.mp hb with he | rfl
    · exact hs rank he map hp
    · rw [hf] at hp
      exact hsa map (Option.some.inj hp)
  · have hw : selected.shape.map (⟨0, ·⟩) = selected.axes.origin := by
      conv_lhs => rw [← hpa]
      rfl
    rw [hw]
    refine ⟨⟨tiles_self _, nofun, forall_mem_singleton.mpr ⟨?_, nofun⟩, ?_⟩, nofun⟩
    · simp [origin, shape]
    · refine ⟨length_replicate, fun rank => ?_⟩
      rw [getD_eq_getElem?_getD, getElem?_replicate]
      split <;> rfl
  · rintro planning ⟨hc, hs⟩
    split
    · exact returns_fail _
    rename_i done
    apply returns_pure
    have ht := hc.tiles
    rw [not_not.mp done, append_nil, append_nil] at ht
    refine ⟨hfi, hpa, fun rank map hp => ?_, hsh, rfl, ht, hc.supplied, hc.counts⟩
    exact hs rank (List.getElem?_eq_some_iff.mp hp).1 map hp

end Loops

end Eredu.Parameters
