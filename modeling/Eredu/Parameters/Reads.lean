import Eredu.Parameters.Tiling
import Mathlib.Algebra.Order.Ring.Rat

/-!
# A sharded read gives the unsharded answer

When every rank supplies its tiles in the order of the plan, the assembly is the
region of the global tensor, or its contraction with the directions.
-/

namespace Eredu.Parameters

open Effect List RowMajor Box PartitionParameterReadPlan Function

def globalCell : List ComponentCoordinateMap → List Nat → Option (List Nat)
  | [], [] => some []
  | axis :: axes, place :: places => do
    let first ← axis.localToGlobal place
    let rest ← globalCell axes places
    return first :: rest
  | _, _ => none

def ParameterCoordinateMap.Owns (map : ParameterCoordinateMap) (cell : List Nat) : Prop :=
  ∃ places, globalCell map.axes places = some cell

variable (tensor : List Nat → ℚ)

/-- The part of a global tensor that a rank holds. -/
def localTensor (map : ParameterCoordinateMap) (places : List Nat) : ℚ :=
  match globalCell map.axes places with
  | some cell => tensor cell
  | none => 0

def selection (box : Box) : List ℚ := box.cells.map tensor

def contraction (projection : ParameterProjection) : List ℚ :=
  let along := projection.region.axes.getD projection.axis ⟨0, 0⟩
  (cells (contracted projection.axis projection.region.axes ⟨0, projection.directions⟩)).map
    fun cell => ((range along.width).map fun step =>
      tensor (cell.dropLast.insertIdx projection.axis (along.start + step)) *
        projection.coefficients.getD (cell.getLastD 0 * along.width + step) 0).sum

def expected (region : ParameterRegion) :
    Option ParameterProjection → List ℚ
  | some projection => contraction tensor projection
  | none => selection tensor region.axes

/-- The values that a rank supplies for a tile: the tile of its local tensor, or the contraction of
the tile with the directions for it. -/
def Produces {σ : Type} (reserve : Nat → Effect σ ParameterError Unit) (globalShape : List Nat)
    (projection : Option ParameterProjection) (ranks : List (Option ParameterCoordinateMap))
    (tensor : List Nat → ℚ) (tile : PartitionParameterReadFragment) (values : List ℚ) : Prop :=
  ∃ map, ranks[tile.rank]? = some (some map) ∧
    match projection with
    | some projection => ∃ before after piece,
        (tile.source.projectContraction reserve projection globalShape).outcome before =
          (.ok piece, after) ∧ values = contraction (localTensor tensor map) piece
    | none => values = selection (localTensor tensor map) tile.source.source

def payloads (plan : PartitionParameterReadPlan) (supply : PartitionParameterReadFragment → List ℚ) :
    List (List ℚ) :=
  (range plan.counts.length).map fun rank => (plan.fragments.filter (·.rank = rank)).flatMap supply

variable {offset : List Nat} {axes : List ComponentCoordinateMap} {region source destination : Box}

theorem globalCell_of_corresponds (hr : axes.length = region.length)
    (hc : Corresponds (axes.zip region) source destination)
    (hi : offset ∈ coordinates destination.shape) :
    globalCell axes (source.cellAt offset) = some (region.cellAt (destination.cellAt offset)) := by
  induction axes, region, hr using paired generalizing source destination offset with
  | nil =>
    cases hc
    rfl
  | cons axis axes interval region _ ih =>
    cases hc with
    | cons hf ho =>
      cases mem_coordinates.mp hi with
      | @cons step _ rest _ hs hw =>
        have ht := ih ho (mem_coordinates.mpr hw)
        have hh := hf.2 step hs
        simp only [cellAt, starts, map_cons, zipWith_cons_cons] at ht ⊢
        rw [globalCell, hh, ht]
        rfl

variable {cell : List Nat}

theorem owns_of_corresponds {map : ParameterCoordinateMap} (hr : map.axes.length = region.length)
    (hc : Corresponds (map.axes.zip region) source destination)
    (hi : destination.Contains cell) : map.Owns (region.cellAt cell) := by
  obtain ⟨offset, ho, rfl⟩ := exists_cellAt hi
  exact ⟨_, globalCell_of_corresponds hr hc ho⟩

theorem shape_of_corresponds {axes : Axes} {source destination : Box}
    (hc : Corresponds axes source destination) : source.shape = destination.shape := by
  induction hc with
  | nil => rfl
  | cons hf _ ih => exact congrArg₂ cons hf.1 ih

theorem ownsCell_iff {region : Box}
    (hr : axes.length = region.length) (hs : cell.length = region.length) :
    OwnsCell (axes.zip region) cell ↔
      ∃ places, globalCell axes places = some (region.cellAt cell) := by
  induction cell, region, hs using paired generalizing axes with
  | nil =>
    cases length_eq_zero_iff.mp hr
    exact ⟨fun _ => ⟨[], rfl⟩, fun _ => Forall₂.nil⟩
  | cons place cell interval region _ ih =>
    cases axes with
    | nil => cases hr
    | cons axis axes =>
      have ht := ih (Nat.succ.inj hr)
      constructor
      · rintro (_ | ⟨⟨held, hf⟩, ho⟩)
        obtain ⟨places, hw⟩ := ht.mp ho
        refine ⟨held :: places, ?_⟩
        rw [globalCell, hf, hw]
        rfl
      · rintro ⟨_ | ⟨held, places⟩, hf⟩
        · cases hf
        · obtain ⟨first, hi, hf⟩ := Option.bind_eq_some_iff.mp hf
          obtain ⟨rest, his, hf⟩ := Option.bind_eq_some_iff.mp hf
          obtain ⟨rfl, rfl⟩ := cons.inj (Option.some.inj hf)
          exact Forall₂.cons ⟨held, hi⟩ (ht.mpr ⟨places, his⟩)

variable {shape : List Nat} {tile : Box}

theorem resultPlace_eq (hr : tile.length = shape.length) (index : Nat) :
    resultPlace tile shape index = (ravel shape (tile.cellAt (unravel tile.shape index)),
        index / tile.shape.prod, shape.prod) := by
  induction tile, shape, hr using paired with
  | nil => simp [resultPlace, ravel, Box.shape]
  | cons axis tile size shape _ ih =>
    rw [resultPlace, ih]
    show _ = (ravel (size :: shape) (cellAt (axis :: tile)
      (unravel (axis.width :: Box.shape tile) index)),
        index / (axis.width :: Box.shape tile).prod, (size :: shape).prod)
    rw [unravel_cons, prod_cons, prod_cons, mul_comm size,
      mul_comm axis.width, ← Nat.div_div_eq_div_mul]
    exact Prod.ext (add_comm _ _) rfl

theorem resultIndex_eq (hr : tile.length = shape.length) (index : Nat) :
    resultIndex index tile shape = ravel shape (tile.cellAt (unravel tile.shape index)) :=
  congrArg Prod.fst (resultPlace_eq hr index)

def writes (outputShape : List Nat) (tile : Box) (values : List ℚ) : List (Nat × ℚ) :=
  values.zipIdx.map fun indexed => (resultIndex indexed.2 tile outputShape, indexed.1)

theorem writes_cells {outputShape : List Nat} (hr : tile.length = outputShape.length)
    (value : List Nat → ℚ) : writes outputShape tile (tile.cells.map value) =
      tile.cells.map fun cell => (ravel outputShape cell, value cell) := by
  unfold writes
  rw [cells, ← map_unravel_range, map_map, map_map, map_map]
  apply ext_getElem
  · simp
  · intro index _ _
    simp [resultIndex_eq hr]

section Assembling

variable {plan : PartitionParameterReadPlan} {supply : PartitionParameterReadFragment → List ℚ}
  (projection : Bool)

def write (array : List ℚ) (target : Nat × ℚ) : List ℚ :=
  array.modify target.1 fun old => if projection then old + target.2 else target.2

theorem foldl_placeValue (tile : Box) (outputShape : List Nat) (values : List ℚ)
    (array : List ℚ) : values.zipIdx.foldl (placeValue projection tile outputShape) array =
      (writes outputShape tile values).foldl (write projection) array := by
  unfold writes
  rw [foldl_map]
  rfl

theorem slice_payload {first middle last : List ℚ} :
    slice first.length middle.length (first ++ (middle ++ last)) = middle := by
  unfold slice
  rw [drop_left, take_left]

theorem foldl_assembleFragment
    (hle : ∀ tile ∈ plan.fragments, (supply tile).length = tile.destination.shape.prod)
    (ranks : ∀ tile ∈ plan.fragments, tile.rank < plan.counts.length) (array : List ℚ) :
    (plan.fragments.foldl (assembleFragment plan (payloads plan supply))
      ⟨array, replicate plan.counts.length 0⟩).accumulated = (plan.fragments.flatMap fun tile =>
          writes plan.outputShape tile.destination (supply tile)).foldl (write plan.projection) array := by
  have run : ∀ (rest done : List PartitionParameterReadFragment) (assembly : Assembly),
      plan.fragments = done ++ rest → assembly.offsets.length = plan.counts.length →
      (∀ rank < plan.counts.length, assembly.offsets.getD rank 0 =
        ((done.filter (·.rank = rank)).flatMap supply).length) →
      (rest.foldl (assembleFragment plan (payloads plan supply)) assembly).accumulated =
        (rest.flatMap fun tile => writes plan.outputShape tile.destination (supply tile)).foldl
          (write plan.projection) assembly.accumulated := by
    intro rest
    induction rest with
    | nil => intros; rfl
    | cons tile rest ih =>
      intro done assembly hw hsi ho
      have hl : tile ∈ plan.fragments := by
        rw [hw]
        exact mem_append_right _ mem_cons_self
      have hi := ranks tile hl
      have hp : (payloads plan supply).getD tile.rank [] =
          (done.filter (·.rank = tile.rank)).flatMap supply ++
            (supply tile ++ (rest.filter (·.rank = tile.rank)).flatMap supply) := by
        have hin : tile.rank < (payloads plan supply).length := by
          simpa [payloads] using hi
        rw [getD_eq_getElem _ _ hin]
        simp [payloads, hw]
      have hst : assembly.offsets.getD tile.rank 0 =
          ((done.filter (·.rank = tile.rank)).flatMap supply).length := ho tile.rank hi
      have hv : slice (assembly.offsets.getD tile.rank 0) tile.destination.shape.prod
          ((payloads plan supply).getD tile.rank []) = supply tile := by
        rw [hp, hst, ← hle tile hl]
        exact slice_payload
      rw [foldl_cons, flatMap_cons, foldl_append, ← foldl_placeValue]
      have hsp : assembleFragment plan (payloads plan supply) assembly tile =
          ⟨(supply tile).zipIdx.foldl (placeValue plan.projection tile.destination plan.outputShape)
            assembly.accumulated, assembly.offsets.set tile.rank
              (assembly.offsets.getD tile.rank 0 + tile.destination.shape.prod)⟩ := by
        simp only [assembleFragment, hv]
      rw [hsp]
      apply ih (done ++ [tile])
      · rw [hw, append_assoc]
        rfl
      · rw [length_set]
        exact hsi
      · intro rank hb
        rw [filter_append, flatMap_append, length_append, ← ho rank hb]
        by_cases hs : tile.rank = rank
        · subst hs
          rw [getD_eq_getElem?_getD, getElem?_set_self (by omega)]
          simp [hle tile hl]
        · rw [getD_eq_getElem?_getD, getElem?_set_ne hs, ← getD_eq_getElem?_getD]
          simp [hs]
  apply run plan.fragments [] _ rfl length_replicate
  intro rank hb
  simp

theorem foldl_write (count : Nat) (projection : Bool) (targets : List (Nat × ℚ)) (agreed : Nat → ℚ)
    (hv : ∀ index < count, if projection then
        (targets.map fun target => if target.1 = index then target.2 else 0).sum = agreed index
      else index ∈ targets.map Prod.fst)
    (ha : projection = false → ∀ target ∈ targets, target.2 = agreed target.1) :
    targets.foldl (write projection) (replicate count 0) = (range count).map agreed := by
  have hz : replicate count (0 : ℚ) = (range count).map fun _ => 0 := by
    rw [map_const', length_range]
  rw [hz]
  cases projection with
  | true =>
    refine (Scatter.foldl_add count _ targets).trans ?_
    apply map_congr_left
    intro index hi
    rw [zero_add]
    exact hv index (mem_range.mp hi)
  | false =>
    refine (Scatter.foldl_store count _ agreed (ha rfl)).trans ?_
    apply map_congr_left
    intro index hi
    exact if_pos (hv index (mem_range.mp hi))

end Assembling

section Contracted

variable {box : Box} {axis directions : Nat}

theorem shape_contracted (box : Box) (axis directions : Nat) :
    Box.shape (contracted axis box ⟨0, directions⟩) = contracted axis box.shape directions := by
  simp [contracted, shape, eraseIdx_map]

theorem exists_contracted (hi : offset ∈ coordinates (contracted axis shape directions)) :
    ∃ others direction, offset = others ++ [direction] ∧
      others ∈ coordinates (shape.eraseIdx axis) ∧ direction < directions := by
  rw [contracted, coordinates_append] at hi
  obtain ⟨others, ho, hl⟩ := mem_flatMap.mp hi
  obtain ⟨tail, his, rfl⟩ := mem_map.mp hl
  cases mem_coordinates.mp his with
  | @cons direction _ _ _ hs hr =>
    cases hr
    exact ⟨others, direction, rfl, ho, hs⟩

theorem cellAt_contracted {others : List Nat}
    (hi : others ∈ coordinates (Box.shape (box.eraseIdx axis))) (direction : Nat) :
    cellAt (contracted axis box ⟨0, directions⟩) (others ++ [direction]) =
      cellAt (box.eraseIdx axis) others ++ [direction] := by
  have hl := length_of_mem_coordinates hi
  unfold contracted cellAt starts
  rw [map_append, zipWith_append]
  · simp
  · rw [hl, Box.shape, length_map, length_map]

end Contracted

variable {part : Interval} {along : Interval} (values : List ℚ)

section Supplying

variable {σ : Type} {reserve : Nat → Effect σ ParameterError Unit} {globalShape : List Nat}
  {region : Box} {tensor : List Nat → ℚ} {map : ParameterCoordinateMap} {source destination : Box}

theorem localTensor_of_corresponds (hr : map.axes.length = region.length)
    (hc : Corresponds (map.axes.zip region) source destination)
    (hi : offset ∈ coordinates destination.shape) : localTensor tensor map (source.cellAt offset) =
      tensor (region.cellAt (destination.cellAt offset)) := by
  rw [localTensor, globalCell_of_corresponds hr hc hi]

theorem selection_of_corresponds (hr : map.axes.length = region.length)
    (hc : Corresponds (map.axes.zip region) source destination) :
    selection (localTensor tensor map) source =
      destination.cells.map fun cell => tensor (region.cellAt cell) := by
  unfold selection cells
  rw [shape_of_corresponds hc, map_map, map_map]
  apply map_congr_left
  intro offset hi
  exact localTensor_of_corresponds hr hc hi

theorem returns_selectValues (region : ParameterRegion) :
    (selectValues reserve values shape region).Returns fun selected =>
      Fits region.axes shape ∧ selected = (coordinates region.axes.shape).map fun offset =>
        values.getD (ravel shape (region.axes.cellAt offset)) 0 := by
  apply (returns_ofResult (concludes_validate _ _)).bind
  rintro count ⟨hp, hf, rfl⟩
  apply returns_after
  intro total
  split
  · exact returns_fail _
  apply returns_after
  intro _
  apply returns_pure
  have hs : region.axes.shape = region.shape := congrArg ParameterRegion.shape hp
  refine ⟨hf, ?_⟩
  rw [hs, ← map_unravel_range, map_map, ← hs]
  exact map_congr_left fun index _ => by rw [resultIndex_eq hf.length_eq]; rfl

theorem getD_selected {directions : Nat} (width : Nat)
    {direction : Nat} (hd : direction < directions) {step : Nat} (hp : step < part.width) :
    ((coordinates [directions, part.width]).map fun offset =>
        values.getD (ravel [directions, width] (cellAt [⟨0, directions⟩, part] offset)) 0).getD
      (direction * part.width + step) 0 =
        values.getD (direction * width + (part.start + step)) 0 := by
  have hi : [direction, step] ∈ coordinates [directions, part.width] :=
    mem_coordinates.mpr (Forall₂.cons hd (Forall₂.cons hp Forall₂.nil))
  have hr := ravel_lt hi
  have hu := unravel_ravel hi
  rw [← map_unravel_range, map_map]
  simp only [ravel, prod_cons, prod_nil, mul_one, add_zero] at hr hu
  rw [getD_eq_getElem _ _ (by simpa using hr), getElem_map, getElem_range]
  simp [hu, ravel, cellAt, starts]

structure PieceOf (projection : ParameterProjection) (source destination : Box)
    (piece : ParameterProjection) : Prop where
  region : piece.region.axes = source
  axis : piece.axis = projection.axis
  directions : piece.directions = projection.directions
  coefficients : ∀ direction < projection.directions,
    ∀ step < (destination.getD projection.axis ⟨0, 0⟩).width,
      piece.coefficients.getD
          (direction * (destination.getD projection.axis ⟨0, 0⟩).width + step) 0 =
        projection.coefficients.getD (direction * projection.region.shape.getD projection.axis 0 +
          ((destination.getD projection.axis ⟨0, 0⟩).start + step)) 0

theorem returns_projectContraction (fragment : ParameterRegionFragment)
    (projection : ParameterProjection) :
    (fragment.projectContraction reserve projection globalShape).Returns
      (PieceOf projection fragment.source fragment.destination) := by
  apply returns_after
  intro _
  apply returns_after
  intro outputShape
  apply returns_after
  intro _
  apply (returns_selectValues _ _).bind
  rintro _ ⟨-, rfl⟩
  apply returns_after
  intro _
  exact returns_pure ⟨axes_regionOf _, rfl, rfl, fun _ hd _ hp => getD_selected _ _ hd hp⟩

def fibreSum (tensor : List Nat → ℚ) (projection : ParameterProjection) (tile : Box)
    (cell : List Nat) : ℚ :=
  let part := tile.getD projection.axis ⟨0, 0⟩
  ((range part.width).map fun step =>
    tensor (projection.region.axes.cellAt
      (cell.dropLast.insertIdx projection.axis (part.start + step))) *
        projection.coefficients.getD (cell.getLastD 0 * projection.region.shape.getD projection.axis 0 +
          (part.start + step)) 0).sum

theorem getD_of_present {box : Box} {axis : Nat} {interval : Interval}
    (hp : box[axis]? = some interval) : box.getD axis ⟨0, 0⟩ = interval := by
  rw [getD_eq_getElem?_getD, hp]
  rfl

theorem contraction_of_corresponds {projection piece : ParameterProjection}
    (hr : map.axes.length = projection.region.axes.length)
    (hco : Corresponds (map.axes.zip projection.region.axes) source destination)
    (hp : PieceOf projection source destination piece)
    (hpr : destination[projection.axis]? = some part) : contraction (localTensor tensor map) piece =
      (cells (contracted projection.axis destination ⟨0, projection.directions⟩)).map
        (fibreSum tensor projection destination) := by
  have hs := shape_of_corresponds hco
  have hwi : source.shape[projection.axis]? = some part.width := by
    rw [hs, Box.shape, getElem?_map, hpr]
    rfl
  obtain ⟨held, his, hsa⟩ := getElem?_map .. ▸ hwi |> Option.map_eq_some_iff.mp
  have hc := hp.coefficients
  rw [getD_of_present hpr] at hc
  unfold contraction cells
  rw [hp.region, hp.axis, hp.directions, getD_of_present his, shape_contracted,
    shape_contracted, hs]
  dsimp only
  rw [hsa, map_map, map_map]
  apply map_congr_left
  intro offset hie
  obtain ⟨others, direction, rfl, hw, hsm⟩ := exists_contracted hie
  have hi : others ∈ coordinates (Box.shape (destination.eraseIdx projection.axis)) := by
    rw [Box.shape, ← eraseIdx_map]
    exact hw
  have hin : others ∈ coordinates (Box.shape (source.eraseIdx projection.axis)) := by
    rw [Box.shape, ← eraseIdx_map]
    show others ∈ coordinates (source.shape.eraseIdx _)
    rw [hs]
    exact hw
  unfold fibreSum
  simp only [comp_apply, getD_of_present hpr]
  rw [cellAt_contracted hin, cellAt_contracted hi]
  congr 1
  apply map_congr_left
  intro step hip
  have hb := mem_range.mp hip
  rw [dropLast_concat, dropLast_concat, getLastD_concat, getLastD_concat,
    cellAt_insertIdx his hin, cellAt_insertIdx hpr hi,
    hc direction hsm step hb]
  congr 1
  apply localTensor_of_corresponds hr hco
  rw [← hs]
  apply insertIdx_mem_coordinates hwi _ hb
  rw [hs]
  exact hw

theorem contraction_eq {projection : ParameterProjection}
    (hpa : regionOf projection.region.axes = projection.region)
    (hp : projection.region.axes[projection.axis]? = some along) : contraction tensor projection =
      (coordinates (contracted projection.axis projection.region.shape
        projection.directions)).map (fibreSum tensor projection projection.region.axes.origin) := by
  have hs : projection.region.axes.shape = projection.region.shape :=
    congrArg ParameterRegion.shape hpa
  have hwi : projection.region.shape.getD projection.axis 0 = along.width := by
    rw [← hs, Box.shape, getD_eq_getElem?_getD, getElem?_map, hp]
    rfl
  have ha : projection.region.axes.origin[projection.axis]? = some ⟨0, along.width⟩ := by
    rw [origin, Box.shape, map_map, getElem?_map, hp]
    rfl
  unfold contraction cells
  rw [shape_contracted, hs, getD_of_present hp]
  rw [map_map]
  apply map_congr_left
  intro offset hin
  obtain ⟨others, direction, rfl, hw, hsm⟩ := exists_contracted hin
  have hi : others ∈ coordinates (Box.shape (projection.region.axes.eraseIdx projection.axis)) := by
    rw [Box.shape, ← eraseIdx_map]
    show others ∈ coordinates (projection.region.axes.shape.eraseIdx _)
    rw [hs]
    exact hw
  unfold fibreSum
  simp only [comp_apply, getD_of_present ha, hwi]
  rw [cellAt_contracted hi]
  congr 1
  apply map_congr_left
  intro step his
  rw [dropLast_concat, dropLast_concat, getLastD_concat, getLastD_concat,
    cellAt_insertIdx hp hi, zero_add]

end Supplying

theorem mem_coordinates_of_fits {box : Box} (hfi : Fits box shape)
    (hc : box.Contains cell) : cell ∈ coordinates shape := by
  rw [mem_coordinates]
  induction hfi generalizing cell with
  | nil =>
    cases hc
    exact Forall₂.nil
  | cons hf _ ih =>
    cases hc with
    | cons hh ho => exact Forall₂.cons (hh.2.trans_le hf.2) (ih ho)

theorem assembled_selection {tiles : List Box} {region : Box} (hs : region.shape = shape)
    (hc : Box.Tiles tiles region.origin) (value : List Nat → ℚ) :
    (tiles.flatMap fun tile => tile.cells.map fun cell =>
        (ravel shape cell, value cell)).foldl (write false) (replicate shape.prod 0) =
      (coordinates shape).map value := by
  subst hs
  have all := hc.perm_cells
  rw [cells_origin] at all
  rw [← map_flatMap, foldl_write region.shape.prod false _
    (fun index => value (unravel region.shape index)), ← map_unravel_range,
    map_map]
  · rfl
  · intro index hb
    obtain ⟨cell, hm, rfl⟩ := exists_ravel hb
    show _ ∈ _
    rw [map_map]
    exact mem_map.mpr ⟨cell, all.mem_iff.mpr hm, rfl⟩
  · intro _ target hl
    obtain ⟨cell, hm, rfl⟩ := mem_map.mp hl
    rw [unravel_ravel (all.mem_iff.mp hm)]

section Contracting

variable {tensor : List Nat → ℚ} {projection : ParameterProjection}

variable (tensor)

def weighted (projection : ParameterProjection) (direction : Nat) (cell : List Nat) : ℚ :=
  tensor (projection.region.axes.cellAt cell) *
    projection.coefficients.getD (direction * projection.region.shape.getD projection.axis 0 +
      cell.getD projection.axis 0) 0

theorem sum_weighted (hp : tile[projection.axis]? = some part) (others : List Nat) (direction : Nat)
    [Decidable (Box.Contains (tile.eraseIdx projection.axis) others)] :
    (tile.cells.map fun cell =>
      if cell.eraseIdx projection.axis = others then weighted tensor projection direction cell
      else 0).sum =
      if Box.Contains (tile.eraseIdx projection.axis) others then
        fibreSum tensor projection tile (others ++ [direction])
      else 0 := by
  rw [sum_cells_fibre hp]
  split
  · next hc =>
    have hl : projection.axis ≤ others.length := by
      rw [← hc.length_eq, length_eraseIdx_of_lt (List.getElem?_eq_some_iff.mp hp).1]
      have := (List.getElem?_eq_some_iff.mp hp).1
      omega
    unfold fibreSum
    simp only [getD_of_present hp, dropLast_concat, getLastD_concat]
    congr 1
    apply map_congr_left
    intro step _
    have hh : (others.insertIdx projection.axis (part.start + step)).getD projection.axis 0 =
        part.start + step := by
      rw [getD_eq_getElem?_getD, getElem?_insertIdx_self, if_pos hl]
      rfl
    rw [weighted, hh]
  · rfl

variable {tensor}

theorem contains_contracted {axis directions direction : Nat} {others : List Nat}
    (hs : direction < directions) :
    Box.Contains (contracted axis tile ⟨0, directions⟩) (others ++ [direction]) ↔
      Box.Contains (tile.eraseIdx axis) others := by
  unfold contracted Box.Contains
  rw [← forall₂_reverse_iff, reverse_append, reverse_append]
  rw [reverse_singleton, reverse_singleton, singleton_append, singleton_append,
    forall₂_cons, forall₂_reverse_iff]
  apply and_iff_right
  refine ⟨Nat.zero_le _, ?_⟩
  unfold Interval.finish
  rw [zero_add]
  exact hs

theorem sum_targets {outputShape cell : List Nat} {box : Box} [Decidable (box.Contains cell)]
    (hf : Fits box outputShape) (hi : cell ∈ coordinates outputShape) (value : List Nat → ℚ) :
    ((box.cells.map fun other => (ravel outputShape other, value other)).map fun target =>
        if target.1 = ravel outputShape cell then target.2 else 0).sum =
      if box.Contains cell then value cell else 0 := by
  have hs : ∀ other ∈ box.cells, (ravel outputShape other = ravel outputShape cell ↔ other = cell) :=
    fun other hm => ⟨ravel_injective (mem_coordinates_of_fits hf (mem_cells.mp hm)) hi, congrArg _⟩
  have ht : ((box.cells.map fun other => (ravel outputShape other, value other)).map fun target =>
        if target.1 = ravel outputShape cell then target.2 else 0) =
      box.cells.map fun other => if other = cell then value other else 0 := by
    rw [map_map]
    exact map_congr_left fun other hm => by simp only [comp_apply, hs other hm]
  rw [ht, Scatter.sum_map_ite (nodup_cells _)]
  exact if_congr mem_cells rfl rfl

theorem assembled_contraction {outputShape : List Nat} {tiles : List Box}
    (hsh : outputShape = contracted projection.axis projection.region.shape projection.directions)
    (hpa : regionOf projection.region.axes = projection.region)
    (hp : projection.region.axes[projection.axis]? = some along)
    (hco : Box.Tiles tiles projection.region.axes.origin)
    (hle : ∀ tile ∈ tiles, tile.length = projection.region.axes.length) (hf : ∀ tile ∈ tiles,
      Fits (contracted projection.axis tile ⟨0, projection.directions⟩) outputShape) :
    (tiles.flatMap fun tile =>
      (cells (contracted projection.axis tile ⟨0, projection.directions⟩)).map fun cell =>
        (ravel outputShape cell, fibreSum tensor projection tile cell)).foldl (write true)
          (replicate outputShape.prod 0) = (coordinates outputShape).map
        (fibreSum tensor projection projection.region.axes.origin) := by
  classical
  have hie : projection.axis < projection.region.axes.length := (List.getElem?_eq_some_iff.mp hp).1
  rw [foldl_write outputShape.prod true _ (fun index => fibreSum tensor projection
    projection.region.axes.origin (unravel outputShape index)),
    ← map_unravel_range, map_map]
  · rfl
  · intro index hb
    obtain ⟨cell, hi, rfl⟩ := exists_ravel hb
    rw [unravel_ravel hi]
    have hd := hi
    rw [hsh] at hd
    obtain ⟨others, direction, rfl, hw, hsm⟩ := exists_contracted hd
    -- the cells of a result are the fibres of the tiles, and the tiles have all cells once
    have hpe : ∀ tile ∈ tiles,
        (((cells (contracted projection.axis tile ⟨0, projection.directions⟩)).map fun cell =>
          (ravel outputShape cell, fibreSum tensor projection tile cell)).map fun target =>
            if target.1 = ravel outputShape (others ++ [direction]) then target.2 else 0).sum =
          (tile.cells.map fun cell => if cell.eraseIdx projection.axis = others then
            weighted tensor projection direction cell else 0).sum := by
      intro tile hl
      rw [sum_targets (hf tile hl) hi, sum_weighted tensor (getElem?_eq_getElem (hle tile hl ▸ hie))]
      simp only [contains_contracted hsm]
    have ha : projection.region.axes.origin[projection.axis]? = some ⟨0, along.width⟩ := by
      rw [origin, shape, map_map, getElem?_map, hp]
      rfl
    have hin : Box.Contains (projection.region.axes.origin.eraseIdx projection.axis) others := by
      rw [origin, eraseIdx_map]
      apply contains_sizes
      have hsi : projection.region.axes.shape = projection.region.shape :=
        congrArg ParameterRegion.shape hpa
      rw [hsi]
      exact hw
    have ht := sum_weighted tensor ha others direction
    rw [if_pos hin] at ht
    rw [← ht, ← (hco.perm_cells.map _).sum_eq, map_flatMap, map_flatMap,
      flatMap_def, flatMap_def, sum_flatten, sum_flatten, map_map,
      map_map]
    congr 1
    apply map_congr_left
    exact hpe
  · intro him
    cases him

end Contracting

theorem concludes_outputShape (projection : ParameterProjection) (source : List Nat) :
    Concludes (projection.outputShape source)
      (fun shape => regionOf projection.region.axes = projection.region ∧
        projection.axis < projection.region.axes.length ∧
        shape = contracted projection.axis projection.region.shape projection.directions)
      fun _ => True := by
  apply (concludes_validate projection.region source).bind
  rintro count ⟨hp, -, -⟩
  apply (concludes_required fun width hf => (getElem?_eq_some_iff.mp hf).1).bind
  intro width hi
  apply (concludes_mul _ _).bind
  intro total _
  split
  · trivial
  apply (concludes_self _).bind
  intro _ _
  refine ⟨hp, ?_, rfl⟩
  have hl : projection.region.axes.length = projection.region.shape.length := by
    conv_rhs => rw [← hp]
    rw [regionOf, shape, length_map]
  rw [hl]
  exact hi

section Assembled

variable {σ : Type} {reserve : Nat → Effect σ ParameterError Unit} {globalShape : List Nat}
  {selected : ParameterRegion} {projection : Option ParameterProjection}
  {ranks : List (Option ParameterCoordinateMap)} {plan : PartitionParameterReadPlan}
  (planned : Planned globalShape selected projection ranks plan)

include planned

theorem Planned.axes_length {rank : Nat} {map : ParameterCoordinateMap}
    (hp : ranks[rank]? = some (some map)) : map.axes.length = selected.axes.length := by
  rw [planned.fits.length_eq, ← planned.shapes rank map hp, map.counts, length_map]

variable {tile : PartitionParameterReadFragment}

def tileValue (tensor : List Nat → ℚ) (region tile : Box) (cell : List Nat) :
    Option ParameterProjection → ℚ
  | some projection => fibreSum tensor projection tile cell
  | none => tensor (region.cellAt cell)

theorem Planned.supply_eq {tensor : List Nat → ℚ} (hl : tile ∈ plan.fragments) {values : List ℚ}
    (hps : Produces reserve globalShape projection ranks tensor tile values) :
    values = tile.destination.cells.map fun cell =>
      tileValue tensor selected.axes tile.source.destination cell projection := by
  obtain ⟨map, hp, hc, hi, _⟩ := planned.supplied tile hl
  obtain ⟨other, ha, values⟩ := hps
  cases Option.some.inj (Option.some.inj (hp.symm.trans ha))
  have hr := planned.axes_length hp
  have hs := planned.shape
  cases projection with
  | none =>
    rw [values, hi, selection_of_corresponds hr hc]
    rfl
  | some projection =>
    obtain ⟨before, after, piece, hpr, rfl⟩ := values
    have hpi := (returns_projectContraction tile.source projection).of_ok hpr
    rw [resultShape] at hs
    split at hs
    · next hsa =>
      subst hsa
      have hin := ((concludes_outputShape projection globalShape).of_ok hs).2.1
      have hw : projection.axis < tile.source.destination.length := by
        rw [hc.length.1, length_zip, hr, min_self]
        exact hin
      rw [contraction_of_corresponds hr hc hpi (getElem?_eq_getElem hw), hi]
      rfl
    · cases hs

theorem Planned.rank_lt (hl : tile ∈ plan.fragments) : tile.rank < plan.counts.length := by
  obtain ⟨map, hp, _⟩ := planned.supplied tile hl
  rw [planned.counts.1]
  exact (List.getElem?_eq_some_iff.mp hp).1

section Values

variable {tensor : List Nat → ℚ} {supply : PartitionParameterReadFragment → List ℚ}
  (produced : ∀ tile ∈ plan.fragments,
    Produces reserve globalShape projection ranks tensor tile (supply tile))

include produced

theorem Planned.supply_length (hl : tile ∈ plan.fragments) :
    (supply tile).length = tile.destination.shape.prod := by
  rw [planned.supply_eq hl (produced tile hl), length_map, length_cells]

theorem Planned.payload_lengths : (payloads plan supply).map length = plan.counts := by
  apply ext_getElem
  · simp [payloads]
  · intro rank _ hb
    have hc := planned.counts.2 rank
    rw [getD_eq_getElem _ _ hb] at hc
    rw [hc]
    simp only [payloads, getElem_map, getElem_range, length_flatMap]
    congr 1
    apply map_congr_left
    intro tile hl
    exact planned.supply_length produced (mem_of_mem_filter hl)

theorem Planned.written : (plan.fragments.flatMap fun tile =>
      writes plan.outputShape tile.destination (supply tile)).foldl (write plan.projection)
        (replicate plan.outputShape.prod 0) = expected tensor selected projection := by
  have hf : ∀ tile ∈ plan.fragments, tile.destination =
      destinationOf projection tile.source.destination ∧ Fits tile.destination plan.outputShape ∧
        tile.source.destination.length = selected.axes.length := by
    intro tile hl
    obtain ⟨map, hpr, hc, hi, hf, _⟩ := planned.supplied tile hl
    refine ⟨hi, hf, ?_⟩
    rw [hc.length.1, length_zip, planned.axes_length hpr, min_self]
  have he : (plan.fragments.flatMap fun tile =>
      writes plan.outputShape tile.destination (supply tile)) =
        (plan.fragments.map (·.source.destination)).flatMap fun tile =>
          (destinationOf projection tile).cells.map fun cell =>
            (ravel plan.outputShape cell,
              tileValue tensor selected.axes tile cell projection) := by
    rw [flatMap_map]
    apply flatMap_congr
    intro tile hl
    obtain ⟨hi, hin, _⟩ := hf tile hl
    rw [planned.supply_eq hl (produced tile hl), writes_cells hin.length_eq, hi]
  have hs := planned.shape
  rw [he, planned.projecting]
  cases projection with
  | none =>
    have hsi : selected.axes.shape = plan.outputShape := by
      rw [← Except.ok.inj hs]
      exact congrArg ParameterRegion.shape planned.paired
    refine (assembled_selection hsi planned.tiles fun cell => tensor (selected.axes.cellAt cell)).trans ?_
    rw [expected, selection, cells, map_map, hsi]
    rfl
  | some projection =>
    rw [resultShape] at hs
    split at hs
    · next hsa =>
      subst hsa
      obtain ⟨hp, hie, his⟩ := (concludes_outputShape projection globalShape).of_ok hs
      refine (assembled_contraction his hp (getElem?_eq_getElem hie) planned.tiles ?_ ?_).trans ?_
      · intro tile hl
        obtain ⟨fragment, hm, rfl⟩ := mem_map.mp hl
        exact (hf fragment hm).2.2
      · intro tile hl
        obtain ⟨fragment, hm, rfl⟩ := mem_map.mp hl
        obtain ⟨hi, hin, _⟩ := hf fragment hm
        rw [hi] at hin
        exact hin
      · rw [expected, contraction_eq hp (getElem?_eq_getElem hie), his]
    · cases hs

/-- Once the assembly is paid for, it returns what was asked for. -/
theorem Planned.assemble_eq {before after : σ}
    (hp : (charge reserve plan.assemblyBytes).outcome before = (.ok (), after)) :
    (plan.assemble reserve (payloads plan supply)).outcome before =
      (.ok (expected tensor selected projection), after) := by
  unfold assemble
  rw [if_neg (not_not.mpr (planned.payload_lengths produced)), outcome_bind, hp]
  have hc : (payloads plan supply).length = plan.counts.length := by simp [payloads]
  rw [hc]
  show (Except.ok _, after) = _
  rw [foldl_assembleFragment (fun tile hl => planned.supply_length produced hl)
    (fun tile hl => planned.rank_lt hl), planned.written produced]

end Values

end Assembled

/-- A plan that is made tiles the region, gives every tile to the first rank that owns its cells and
to each tile the local rectangle that holds them; the values that the ranks then supply assemble to
the answer that the whole tensor gives. A region with a cell that no rank owns has no plan. -/
theorem sharded_read_exact {σ : Type} (reserve : Nat → Effect σ ParameterError Unit)
    (globalShape : List Nat) (region : ParameterRegion) (projection : Option ParameterProjection)
    (ranks : List (Option ParameterCoordinateMap)) (maxFragments : Nat) :
    (∀ state plan after, (new reserve globalShape region projection ranks
        maxFragments).outcome state = (.ok plan, after) → (plan.fragments.Pairwise fun tile other =>
        tile.source.destination.Apart other.source.destination) ∧
      (∀ cell, region.axes.origin.Contains cell ↔
        ∃ tile ∈ plan.fragments, tile.source.destination.Contains cell) ∧
      (∀ tile ∈ plan.fragments, ∃ map, ranks[tile.rank]? = some (some map) ∧
        (∀ cell, tile.source.destination.Contains cell → map.Owns (region.axes.cellAt cell) ∧
          ∀ rank < tile.rank, ∀ other, ranks[rank]? = some (some other) →
            ¬ other.Owns (region.axes.cellAt cell)) ∧
        tile.source.source.shape = tile.source.destination.shape ∧
        ∀ offset ∈ coordinates tile.source.destination.shape,
          globalCell map.axes (tile.source.source.cellAt offset) =
            some (region.axes.cellAt (tile.source.destination.cellAt offset))) ∧
      (∀ tensor supply, (∀ tile ∈ plan.fragments,
          Produces reserve globalShape projection ranks tensor tile (supply tile)) →
        ∀ before paid, (charge reserve plan.assemblyBytes).outcome before = (.ok (), paid) →
          (plan.assemble reserve (payloads plan supply)).outcome before =
            (.ok (expected tensor region projection), paid))) ∧
    ∀ cell, region.axes.origin.Contains cell →
      (∀ (rank : Nat) (map : ParameterCoordinateMap), ranks[rank]? = some (some map) →
        ¬ map.Owns (region.axes.cellAt cell)) →
        ∀ state plan after, (new reserve globalShape region projection ranks
          maxFragments).outcome state ≠ (.ok plan, after) := by
  refine ⟨fun state plan after hm => ?_, fun cell hi hu state plan after hm => ?_⟩
  · have planned := (returns_new _ _ _ _ _).of_ok hm
    refine ⟨pairwise_map.mp planned.tiles.apart, fun cell => ?_, fun tile hl => ?_,
      fun tensor supply produced before paid hch => planned.assemble_eq produced hch⟩
    · rw [planned.tiles.cover]
      simp
    · obtain ⟨map, hp, hco, _, _, hu⟩ := planned.supplied tile hl
      have rank := planned.axes_length hp
      refine ⟨map, hp, fun cell hc => ⟨owns_of_corresponds rank hco hc, ?_⟩,
        shape_of_corresponds hco, fun offset => globalCell_of_corresponds rank hco⟩
      intro earlier hb other hf ho
      apply hu cell hc earlier hb other hf
      apply (ownsCell_iff (planned.axes_length hf) _).mpr ho
      rw [← hc.length_eq, hco.length.1, length_zip, rank, min_self]
  · have planned := (returns_new _ _ _ _ _).of_ok hm
    obtain ⟨box, hl, hc⟩ := (planned.tiles.cover cell).mp hi
    obtain ⟨tile, hme, rfl⟩ := mem_map.mp hl
    obtain ⟨map, hp, hco, _⟩ := planned.supplied tile hme
    exact hu tile.rank map hp (owns_of_corresponds (planned.axes_length hp) hco hc)

section Three

/-- Two coordinates of an axis of four, in another order. -/
def someCoordinates : ParameterCoordinateMap :=
  ⟨[4], [⟨4, .indices [3, 1], by decide, by simp [Selection.Valid]⟩], rfl⟩

def allCoordinates : ParameterCoordinateMap :=
  ⟨[4], [⟨4, .range 0 4, by decide, by simp [Selection.Valid]⟩], rfl⟩

def freeReserve : Nat → Effect Unit ParameterError Unit := fun _ => pure ()

/-- The tensor whose values are its coordinates. -/
def ramp (cell : List Nat) : ℚ := cell.headD 0

/-- The coordinates 1 to 3, from a rank that has two of them and one that has all. -/
def threePlan : PartitionParameterReadPlan where
  outputShape := [3]
  counts := [2, 1]
  fragments := [⟨0, ⟨[⟨0, 1⟩], [⟨2, 1⟩]⟩, [⟨2, 1⟩]⟩, ⟨0, ⟨[⟨1, 1⟩], [⟨0, 1⟩]⟩, [⟨0, 1⟩]⟩,
    ⟨1, ⟨[⟨2, 1⟩], [⟨1, 1⟩]⟩, [⟨1, 1⟩]⟩]
  projection := false

theorem sharded_read_three : (new freeReserve [4] ⟨[1], [3]⟩ none
        [some someCoordinates, some allCoordinates] 8).outcome () = (.ok threePlan, ()) ∧
      (threePlan.assemble freeReserve (payloads threePlan fun tile =>
        selection (localTensor ramp (if tile.rank = 0 then someCoordinates else allCoordinates))
          tile.source.source)).outcome () = (.ok [1, 2, 3], ()) := by
  have hm : (new freeReserve [4] ⟨[1], [3]⟩ none
      [some someCoordinates, some allCoordinates] 8).outcome () = (.ok threePlan, ()) := by
    decide +kernel
  have hc : (charge freeReserve threePlan.assemblyBytes).outcome () = (.ok (), ()) := by
    decide +kernel
  obtain ⟨_, _, _, ha⟩ := (sharded_read_exact freeReserve [4] ⟨[1], [3]⟩ none
    [some someCoordinates, some allCoordinates] 8).1 () threePlan () hm
  have han : expected ramp ⟨[1], [3]⟩ none = [1, 2, 3] := by
    decide +kernel
  refine ⟨hm, ?_⟩
  apply ha ramp _ _ () () hc
  intro tile hl
  rcases mem_cons.mp hl with rfl | hl
  · exact ⟨someCoordinates, rfl, rfl⟩
  · rcases mem_cons.mp hl with rfl | hl
    · exact ⟨someCoordinates, rfl, rfl⟩
    · cases mem_singleton.mp hl
      exact ⟨allCoordinates, rfl, rfl⟩

end Three

end Eredu.Parameters
