import Eredu.Foundation.Checked
import Eredu.Foundation.RowMajor

/-!
# Selections of checkpoint tensors

A selection names elements of a tensor of some shape. `validateSelection` checks
it and gives the shape of what is selected; `TensorSelection.select` is what it
means on the elements in row-major order.
-/

namespace Eredu.Checkpoint

inductive StoreError where
  | unknownTensor (key : String)
  | invalidSelection (key message : String)
  | boundedSelectionUnavailable (key message : String)
  | overflow (context : String)
  /-- The file cannot be opened, has changed or is too short. -/
  | io
  deriving Repr, DecidableEq

inductive TensorSelection where
  | full
  | range (axis start finish : Nat)
  | indices (axis : Nat) (indices : List Nat)
  | contiguous (offsetElements : Nat) (shape : List Nat)
  deriving Repr, DecidableEq

variable (key : String) (shape : List Nat) (selection : TensorSelection)

def checkedElements : Except StoreError Nat :=
  checkedProduct (.overflow s!"element count for \"{key}\"") shape

/-- The shape of what is selected, of a tensor of `elements` elements. -/
def selectedShape (elements : Nat) :
    TensorSelection → Except StoreError (List Nat)
  | .full => .ok shape
  | .range axis start finish =>
    match shape[axis]? with
    | none => .error (.invalidSelection key "axis outside rank")
    | some dimension =>
      if finish ≤ start ∨ dimension < finish then
        .error (.invalidSelection key "range outside dimension")
      else
        .ok (shape.set axis (finish - start))
  | .indices axis indices =>
    match shape[axis]? with
    | none => .error (.invalidSelection key "axis outside rank")
    | some dimension =>
      if indices = [] ∨ indices.any (dimension ≤ ·) then
        .error (.invalidSelection key "indices are empty or outside dimension")
      else
        .ok (shape.set axis indices.length)
  | .contiguous offsetElements selected =>
    if selected = [] ∨ selected.contains 0 then
      .error (.invalidSelection key "contiguous output shape is empty")
    else do
      let count ← checkedElements key selected
      let finish ← required (.overflow s!"contiguous selection end for \"{key}\"")
        (Word.checkedAdd offsetElements count)
      if elements < finish then
        .error (.invalidSelection key "contiguous span outside tensor")
      else
        .ok selected

def validateSelection : Except StoreError (List Nat) := do
  let elements ← checkedElements key shape
  let output ← selectedShape key shape elements selection
  let _ ← checkedElements key output
  return output

def TensorSelection.select {α : Type} (selection : TensorSelection) (shape : List Nat)
    (elements : List α) : List (Option α) :=
  match selection with
  | .full => elements.map some
  | .range axis start finish =>
    RowMajor.gather shape axis (List.range' start (finish - start)) elements
  | .indices axis listed => RowMajor.gather shape axis listed elements
  | .contiguous offsetElements selected =>
    (RowMajor.coordinates selected).map fun coords =>
      elements[offsetElements + RowMajor.ravel selected coords]?

def TensorSelection.Valid (shape output : List Nat) : Prop :=
  match selection with
  | .full => output = shape
  | .range axis start finish => ∃ dimension, shape[axis]? = some dimension ∧ start < finish ∧
      finish ≤ dimension ∧ output = shape.set axis (finish - start)
  | .indices axis listed => ∃ dimension, shape[axis]? = some dimension ∧ listed ≠ [] ∧
      (∀ index ∈ listed, index < dimension) ∧ output = shape.set axis listed.length
  | .contiguous offsetElements selected => selected ≠ [] ∧ (∀ size ∈ selected, size ≠ 0) ∧
      offsetElements + selected.prod ≤ shape.prod ∧ output = selected

open Effect (Concludes)

theorem concludes_selectedShape :
    Concludes (selectedShape key shape shape.prod selection) (selection.Valid shape)
      fun _ => True := by
  cases selection with
  | full => exact rfl
  | range axis start finish =>
    simp only [selectedShape]
    split
    · trivial
    rename_i dimension hp
    split
    · trivial
    · next hi => exact ⟨dimension, hp, by omega, by omega, rfl⟩
  | indices axis listed =>
    simp only [selectedShape]
    split
    · trivial
    rename_i dimension hp
    split
    · trivial
    rename_i hi
    obtain ⟨hn, hb⟩ := not_or.mp hi
    exact ⟨dimension, hp, hn, by simpa using hb, rfl⟩
  | contiguous offsetElements selected =>
    simp only [selectedShape]
    split
    · trivial
    rename_i hn
    obtain ⟨hs, hno⟩ := not_or.mp hn
    apply (concludes_checkedProduct selected).bind
    rintro count ⟨rfl, -⟩
    apply (concludes_required fun finish hf => (Word.checkedAdd_eq_some.mp hf).1).bind
    rintro finish rfl
    split
    · trivial
    rename_i hi
    refine ⟨hs, fun size listed hz => hno ?_, not_lt.mp hi, rfl⟩
    rw [List.contains_iff_mem, ← hz]
    exact listed

theorem concludes_validateSelection : Concludes (validateSelection key shape selection)
      (fun output => selection.Valid shape output ∧ shape.prod ≤ Word.maximum ∧
        output.prod ≤ Word.maximum) fun _ => True := by
  apply (concludes_checkedProduct shape).bind
  rintro elements ⟨rfl, hf⟩
  apply (concludes_selectedShape key shape selection).bind
  intro output hv
  apply (concludes_checkedProduct output).bind
  rintro total ⟨rfl, hb⟩
  exact ⟨hv, hf, hb⟩

end Eredu.Checkpoint
