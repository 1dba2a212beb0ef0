import Eredu.Parameters.Coordinates
import Mathlib.Data.Rat.Defs

/-!
# Reads of partitioned parameters

A read plan gives every cell of a selected region to one rank: the ranks are asked
in order, each takes what it holds of the cells that are not covered yet. The
values that the ranks supply are then put together, or added up when the region is
contracted with directions.
-/

namespace Eredu.Parameters

open Effect

/-- A contraction of a region along one axis with directions, which are rows of coefficients. -/
structure ParameterProjection where
  region : ParameterRegion
  axis : Nat
  directions : Nat
  coefficients : List ℚ
  deriving Repr, DecidableEq

def contracted {α : Type} (axis : Nat) (axes : List α) (last : α) : List α := axes.eraseIdx axis ++ [last]

def ParameterProjection.outputShape (projection : ParameterProjection) (source : List Nat) :
    Except ParameterError (List Nat) := do
  let _ ← projection.region.validate source
  let width ← required (.invalid "projection axis is out of bounds")
    projection.region.shape[projection.axis]?
  let count ← mul width projection.directions
  if projection.directions = 0 ∨ 4194304 < count ∨ count ≠ projection.coefficients.length then
    .error (.invalid "projection directions require a finite, exact payload of at most 16 MiB")
  else do
    let shape := contracted projection.axis projection.region.shape projection.directions
    let _ ← elements shape
    return shape

/-- A tile of the selected region, the rank that supplies it and its place in the result. -/
structure PartitionParameterReadFragment where
  rank : Nat
  source : ParameterRegionFragment
  destination : Box
  deriving Repr, DecidableEq

structure PartitionParameterReadPlan where
  outputShape : List Nat
  counts : List Nat
  fragments : List PartitionParameterReadFragment
  projection : Bool
  deriving Repr, DecidableEq

structure Planning where
  counts : List Nat
  fragments : List PartitionParameterReadFragment
  /-- The cells of the region that no rank supplies yet. -/
  remaining : List Box
  deriving Repr, DecidableEq

section Planning

variable {σ : Type} (reserve : Nat → Effect σ ParameterError Unit)

def intersect (left right : Box) : Effect σ ParameterError (Option Box) :=
  if (left.zip right).any fun (a, b) => min a.finish b.finish ≤ max a.start b.start then
    return none
  else do
    charge reserve (bytesFor 64 left.length 16)
    return some (left.meet right)

def pushPiece (max rank : Nat) (piece : Interval → Box) (start finish : Nat) (output : List Box) :
    Effect σ ParameterError (List Box) :=
  if start = finish then
    return output
  else if max ≤ output.length then
    fail (.invalid "parameter uncovered-region bound exceeded")
  else do
    charge reserve (bytesFor 64 rank 16)
    return output ++ [piece ⟨start, finish - start⟩]

def subtractFrom (max : Nat) (done : Box) : Box → Box → List Box → Effect σ ParameterError (List Box)
  | axis :: source, other :: cut, output => do
    let rank := done.length + (source.length + 1)
    let piece (side : Interval) : Box := done ++ side :: source
    let output ← pushPiece reserve max rank piece axis.start other.start output
    let output ← pushPiece reserve max rank piece other.finish axis.finish output
    subtractFrom max (done ++ [other]) source cut output
  | _, _, output => return output

def subtract (source cut : Box) (output : List Box) (max : Nat) :
    Effect σ ParameterError (List Box) :=
  subtractFrom reserve max [] source cut output

variable (projection : Option ParameterProjection)

def destinationOf (tile : Box) : Box :=
  match projection with
  | some projection => contracted projection.axis tile ⟨0, projection.directions⟩
  | none => tile

variable (outputShape : List Nat)

def coverPart (maxFragments : Nat) (rank : Nat)
    (source : ParameterRegionFragment) (planning : Planning) (uncovered : Box) :
    Effect σ ParameterError Planning := do
  match ← intersect reserve uncovered source.destination with
  | none =>
    if maxFragments ≤ planning.remaining.length then
      fail (.invalid "parameter uncovered-region bound exceeded")
    else
      charge reserve (.ok 64)
      return { planning with remaining := planning.remaining ++ [uncovered] }
  | some intersection =>
    if maxFragments ≤ planning.fragments.length then
      fail (.invalid "parameter read fragment bound exceeded")
    else
      charge reserve (bytesFor 256 uncovered.length 32)
      let selected ← source.restrictDestination reserve intersection
      let destination := destinationOf projection intersection
      let count ← ofResult ((regionOf destination).validate outputShape)
      let total ← ofResult (add (planning.counts.getD rank 0) count)
      let next ← subtract reserve uncovered intersection planning.remaining maxFragments
      return ⟨planning.counts.set rank total,
        planning.fragments ++ [⟨rank, selected, destination⟩], next⟩

def coverFragment (maxFragments rank : Nat) (planning : Planning)
    (source : ParameterRegionFragment) : Effect σ ParameterError Planning := do
  let covered ← planning.remaining.foldlM
    (coverPart reserve projection outputShape maxFragments rank source)
    { planning with remaining := [] }
  if maxFragments < covered.remaining.length then
    fail (.invalid "parameter uncovered-region bound exceeded")
  else
    return covered

variable (globalShape : List Nat) (region : ParameterRegion)

def coverRank
    (projection : Option ParameterProjection) (outputShape : List Nat) (maxFragments : Nat)
    (planning : Planning) (indexed : Option ParameterCoordinateMap × Nat) :
    Effect σ ParameterError Planning :=
  match indexed with
  | (none, _) => return planning
  | (some coordinates, rank) =>
    if coordinates.globalShape ≠ globalShape then
      fail (.invalid "parameter rank shape differs from global declaration")
    else if planning.remaining = [] then
      return planning
    else do
      let projected ← projectRegion reserve coordinates region maxFragments
      projected.foldlM (coverFragment reserve projection outputShape maxFragments rank) planning

def resultShape :
    Option ParameterProjection → Except ParameterError (List Nat)
  | some projection =>
    if projection.region = region then
      projection.outputShape globalShape
    else
      .error (.invalid "projection changed the global selection")
  | none => .ok region.shape

def PartitionParameterReadPlan.new
    (projection : Option ParameterProjection) (ranks : List (Option ParameterCoordinateMap))
    (maxFragments : Nat) : Effect σ ParameterError PartitionParameterReadPlan := do
  let _ ← ofResult (region.validate globalShape)
  if ranks = [] ∨ maxFragments = 0 ∨ 32 < globalShape.length then
    fail (.invalid "parameter read topology or fragment bound")
  else
    charge reserve do
      let maps ← mul ranks.length 32
      let axes ← mul globalShape.length 128
      let both ← add maps axes
      add 512 both
    let outputShape ← ofResult (resultShape globalShape region projection)
    let planning ← ranks.zipIdx.foldlM
      (coverRank reserve globalShape region projection outputShape maxFragments)
      ⟨List.replicate ranks.length 0, [], [region.shape.map (⟨0, ·⟩)]⟩
    if planning.remaining ≠ [] then
      fail (.incomplete "selected source cells have no owner")
    else
      return ⟨outputShape, planning.counts, planning.fragments, projection.isSome⟩

end Planning

/-- One pass over the axes, last first, that finds the place of an element of a tile in the result;
what is left of the index and the stride come with it. -/
def resultPlace : Box → List Nat → Nat → Nat × Nat × Nat
  | axis :: tile, size :: shape, index =>
    let (output, left, stride) := resultPlace tile shape index
    (output + (axis.start + left % axis.width) * stride, left / axis.width, stride * size)
  | _, _, index => (0, index, 1)

def resultIndex (index : Nat) (tile : Box) (shape : List Nat) : Nat := (resultPlace tile shape index).1

/-- The state of the assembly: the result and how much of each payload has been used. -/
structure Assembly where
  accumulated : List ℚ
  offsets : List Nat
  deriving Repr, DecidableEq

def placeValue (projection : Bool) (tile : Box) (outputShape : List Nat) (accumulated : List ℚ)
    (indexed : ℚ × Nat) : List ℚ :=
  let target := resultIndex indexed.2 tile outputShape
  accumulated.modify target fun old => if projection then old + indexed.1 else indexed.1

variable (plan : PartitionParameterReadPlan)

def assembleFragment (payloads : List (List ℚ))
    (assembly : Assembly) (fragment : PartitionParameterReadFragment) : Assembly :=
  let count := fragment.destination.shape.prod
  let start := assembly.offsets.getD fragment.rank 0
  let values := RowMajor.slice start count (payloads.getD fragment.rank [])
  ⟨values.zipIdx.foldl (placeValue plan.projection fragment.destination plan.outputShape)
      assembly.accumulated,
    assembly.offsets.set fragment.rank (start + count)⟩

def PartitionParameterReadPlan.assemblyBytes : Except ParameterError Nat := do
  let count ← elements plan.outputShape
  let values ← mul count 12
  let ranks ← mul plan.counts.length 8
  let both ← add values ranks
  add 256 both

def PartitionParameterReadPlan.assemble {σ : Type} (reserve : Nat → Effect σ ParameterError Unit)
    (plan : PartitionParameterReadPlan) (payloads : List (List ℚ)) :
    Effect σ ParameterError (List ℚ) :=
  if payloads.map List.length ≠ plan.counts then
    fail (.incomplete "producer payload count differs from complete read plan")
  else do
    charge reserve plan.assemblyBytes
    let empty : Assembly :=
      ⟨List.replicate plan.outputShape.prod 0, List.replicate payloads.length 0⟩
    return (plan.fragments.foldl (assembleFragment plan payloads) empty).accumulated

def selectValues {σ : Type} (reserve : Nat → Effect σ ParameterError Unit) (values : List ℚ)
    (shape : List Nat) (region : ParameterRegion) : Effect σ ParameterError (List ℚ) := do
  let count ← ofResult (region.validate shape)
  let total ← ofResult (elements shape)
  if values.length ≠ total then
    fail (.invalid "parameter payload geometry differs")
  else
    charge reserve (bytesFor 64 count 4)
    return (List.range count).map fun index => values.getD (resultIndex index region.axes shape) 0

def ParameterRegionFragment.projectContraction {σ : Type}
    (reserve : Nat → Effect σ ParameterError Unit) (fragment : ParameterRegionFragment)
    (projection : ParameterProjection) (globalShape : List Nat) :
    Effect σ ParameterError ParameterProjection := do
  charge reserve (bytesFor 256 projection.region.shape.length 64)
  let outputShape ← ofResult (projection.outputShape globalShape)
  let _ ← ofResult ((regionOf fragment.destination).validate projection.region.shape)
  let width := projection.region.shape.getD projection.axis 0
  let selected := fragment.destination.getD projection.axis ⟨0, 0⟩
  let coefficients ← selectValues reserve projection.coefficients [projection.directions, width]
    ⟨[0, selected.start], [projection.directions, selected.width]⟩
  let destination := contracted projection.axis fragment.destination ⟨0, projection.directions⟩
  let _ ← ofResult ((regionOf destination).validate outputShape)
  return ⟨regionOf fragment.source, projection.axis, projection.directions, coefficients⟩

end Eredu.Parameters
