import Eredu.Foundation.Boxes
import Eredu.Foundation.Checked

/-!
# Coordinates of partitioned parameters

A rank holds, along every axis of a parameter, some of its global coordinates in
some order. `projectRegion` finds the rectangles of a rank's local tensor that hold
cells of a global rectangle.
-/

namespace Eredu.Parameters

open List Effect

inductive ParameterError where
  | invalid (message : String)
  | incomplete (message : String)
  | overflow
  /-- The reservation refuses. -/
  | limit
  deriving Repr, DecidableEq

def add (left right : Nat) : Except ParameterError Nat :=
  required .overflow (Word.checkedAdd left right)

def mul (left right : Nat) : Except ParameterError Nat :=
  required .overflow (Word.checkedMul left right)

/-- A shape that contains zero must not conceal an overflow of its other sizes. -/
def elements (shape : List Nat) : Except ParameterError Nat := do
  let nonzero ← checkedProduct .overflow (shape.filter (· ≠ 0))
  return if shape.contains 0 then 0 else nonzero

structure ParameterRegion where
  starts : List Nat
  shape : List Nat
  deriving Repr, DecidableEq

variable (region : ParameterRegion)

def ParameterRegion.axes : Box :=
  zipWith Interval.mk region.starts region.shape

def regionOf (box : Box) : ParameterRegion := ⟨box.starts, box.shape⟩

def validateAxis (axis : Interval) (size : Nat) : Except ParameterError Unit :=
  if axis.width = 0 then
    .error (.invalid "empty or out-of-bounds parameter region")
  else do
    let finish ← add axis.start axis.width
    if size < finish then
      .error (.invalid "empty or out-of-bounds parameter region")
    else
      .ok ()

def validateAxes : Box → List Nat → Except ParameterError Unit
  | axis :: axes, size :: source => do
    validateAxis axis size
    validateAxes axes source
  | _, _ => .ok ()

def ParameterRegion.validate (source : List Nat) : Except ParameterError Nat :=
  if region.starts.length ≠ source.length ∨ region.shape.length ≠ source.length then
    .error (.invalid "region rank differs from parameter")
  else do
    validateAxes region.axes source
    elements region.shape

inductive Selection where
  | range (start finish : Nat)
  | indices (indices : List Nat)
  deriving Repr, DecidableEq

def Selection.Valid (globalCount : Nat) : Selection → Prop
  | .range start finish => start ≤ finish ∧ finish ≤ globalCount
  | .indices listed => (∀ index ∈ listed, index < globalCount) ∧ listed.Nodup

/-- Built by `range` and `indices`, which refuse any other selection. -/
structure ComponentCoordinateMap where
  globalCount : Nat
  selection : Selection
  nonempty : globalCount ≠ 0
  valid : selection.Valid globalCount

variable (map : ComponentCoordinateMap)

namespace ComponentCoordinateMap

def localCount : Nat :=
  match map.selection with
  | .range start finish => finish - start
  | .indices listed => listed.length

def localToGlobal (place : Nat) : Option Nat :=
  match map.selection with
  | .range start finish => if place < finish - start then some (start + place) else none
  | .indices listed => listed[place]?

end ComponentCoordinateMap

structure ParameterCoordinateMap where
  globalShape : List Nat
  axes : List ComponentCoordinateMap
  counts : globalShape = axes.map (·.globalCount)

/-- Neighbouring local coordinates of one axis that are neighbours in the region too. -/
structure Run where
  place : Nat
  destination : Nat
  length : Nat
  deriving Repr, DecidableEq

def Run.held (run : Run) : Interval := ⟨run.place, run.length⟩

def Run.filled (run : Run) : Interval := ⟨run.destination, run.length⟩

/-- A local rectangle and the rectangle of the selected region that it holds. -/
structure ParameterRegionFragment where
  source : Box
  destination : Box
  deriving Repr, DecidableEq

section Projecting

variable {σ : Type} (reserve : Nat → Effect σ ParameterError Unit)

def charge (bytes : Except ParameterError Nat) : Effect σ ParameterError Unit := do
  let amount ← ofResult bytes
  reserve amount

def bytesFor (fixed count each : Nat) : Except ParameterError Nat := do
  let items ← mul count each
  add fixed items

def misses (axis : ComponentCoordinateMap) (interval : Interval) : Bool :=
  match axis.selection with
  | .range start finish => min interval.finish finish ≤ max interval.start start
  | .indices listed => !listed.any fun global => interval.start ≤ global && global < interval.finish

variable (maxFragments : Nat)

/-- One local coordinate of an axis with listed indices. -/
def extendRuns (interval : Interval) (runs : List Run)
    (indexed : Nat × Nat) : Effect σ ParameterError (List Run) := do
  let (global, place) := indexed
  if interval.start ≤ global ∧ global < interval.finish then
    let joins (previous : Run) : Bool := previous.place + previous.length = place ∧
      previous.destination + previous.length = global - interval.start
    match runs.getLast?.filter joins with
    | some previous => return runs.dropLast ++ [{ previous with length := previous.length + 1 }]
    | none =>
      if maxFragments ≤ runs.length then
        fail (.invalid "parameter fragment limit exceeded")
      else
        charge reserve (.ok 64)
        return runs ++ [⟨place, global - interval.start, 1⟩]
  else
    return runs

def axisRuns (axis : ComponentCoordinateMap) (interval : Interval) :
    Effect σ ParameterError (List Run) :=
  match axis.selection with
  | .range start finish => do
    let first := max interval.start start
    let last := min interval.finish finish
    if first < last then
      charge reserve (.ok 64)
      return [⟨first - start, first - interval.start, last - first⟩]
    else
      return []
  | .indices listed => listed.zipIdx.foldlM (extendRuns reserve maxFragments interval) []

def allRuns (axes : List (ComponentCoordinateMap × Interval)) :
    Effect σ ParameterError (List (List Run) × Nat) :=
  axes.foldlM (fun total axis => do
    let runs ← axisRuns reserve maxFragments axis.1 axis.2
    let count ← ofResult (mul total.2 runs.length)
    if maxFragments < count then
      fail (.invalid "parameter fragment limit exceeded")
    else
      return (total.1 ++ [runs], count)) ([], 1)

/-- The fragment with a number: one run for each axis, the last axis moving fastest. -/
def fragmentAt (axes : List (List Run)) (index : Nat) : ParameterRegionFragment :=
  let chosen := zipWith (fun runs number => runs.getD number ⟨0, 0, 0⟩) axes
    (RowMajor.unravel (axes.map length) index)
  ⟨chosen.map Run.held, chosen.map Run.filled⟩

def projectRegion (map : ParameterCoordinateMap) (region : ParameterRegion) (maxFragments : Nat) :
    Effect σ ParameterError (List ParameterRegionFragment) := do
  let _ ← ofResult (region.validate map.globalShape)
  if maxFragments = 0 then
    fail (.invalid "parameter fragment limit must be positive")
  else
    charge reserve (bytesFor 256 map.axes.length 128)
    let axes := map.axes.zip region.axes
    if axes.any fun axis => misses axis.1 axis.2 then
      return []
    else
      let (runs, count) ← allRuns reserve maxFragments axes
      charge reserve do
        let each ← bytesFor 256 map.axes.length 32
        mul count each
      return (range count).map (fragmentAt runs)

def ParameterRegionFragment.restrictDestination (fragment : ParameterRegionFragment) (selected : Box) :
    Effect σ ParameterError ParameterRegionFragment := do
  if selected.length ≠ fragment.destination.length then
    fail (.invalid "parameter fragment restriction rank")
  else if (selected.zip fragment.destination).any fun (part, whole) =>
      part.width = 0 || part.start < whole.start || whole.finish < part.finish then
    fail (.invalid "parameter fragment restriction exceeds source")
  else
    charge reserve (bytesFor 256 selected.length 64)
    return ⟨zipWith (fun (source, whole) part =>
      (⟨source.start + (part.start - whole.start), part.width⟩ : Interval))
        (fragment.source.zip fragment.destination) selected, selected⟩

end Projecting

end Eredu.Parameters
