import Mathlib.Algebra.BigOperators.Group.Finset.Piecewise
import Mathlib.Data.List.Range

/-!
# Writing into an array one value at a time

Values are added to the places of an array, or stored there. What the array holds
afterwards does not depend on the order: the sum of what went to a place, or the
value that all writes to it agree on.
-/

namespace Eredu.Scatter

open List

variable {α : Type}

theorem modify_map_range (count place : Nat) (contents : Nat → α) (f : α → α) :
    ((range count).map contents).modify place f =
      (range count).map fun index => if index = place then f (contents index) else contents index := by
  apply ext_getElem
  · simp
  · intro index hb _
    rw [getElem_modify]
    simp only [getElem_map, getElem_range, eq_comm]

section Adding

variable [AddCommMonoid α]

theorem foldl_add (count : Nat) (contents : Nat → α) (writes : List (Nat × α)) :
    writes.foldl (fun array write => array.modify write.1 (· + write.2))
        ((range count).map contents) = (range count).map fun index =>
        contents index + (writes.map fun write => if write.1 = index then write.2 else 0).sum := by
  induction writes generalizing contents with
  | nil => simp
  | cons write writes ih =>
    rw [foldl_cons, modify_map_range, ih]
    apply map_congr_left
    intro index _
    rw [map_cons, sum_cons]
    by_cases hh : index = write.1
    · rw [if_pos hh, if_pos hh.symm, add_assoc]
    · rw [if_neg hh, if_neg (Ne.symm hh), zero_add]

theorem sum_map_ite {ι : Type} [DecidableEq ι] {items : List ι} (hd : items.Nodup) (item : ι)
    [Decidable (item ∈ items)] (value : ι → α) :
    (items.map fun other => if other = item then value other else 0).sum =
      if item ∈ items then value item else 0 := by
  rw [← sum_toFinset _ hd, Finset.sum_ite_eq']
  exact if_congr mem_toFinset rfl rfl

end Adding

/-- Writes that agree on what a place holds. -/
theorem foldl_store (count : Nat) (contents agreed : Nat → α) {writes : List (Nat × α)}
    (ha : ∀ write ∈ writes, write.2 = agreed write.1) :
    writes.foldl (fun array write => array.modify write.1 fun _ => write.2)
        ((range count).map contents) =
      (range count).map fun index =>
        if index ∈ writes.map Prod.fst then agreed index else contents index := by
  induction writes generalizing contents with
  | nil => simp
  | cons write writes ih =>
    obtain ⟨hf, ho⟩ := forall_mem_cons.mp ha
    rw [foldl_cons, modify_map_range, ih _ ho]
    apply map_congr_left
    intro index _
    simp only [map_cons, mem_cons]
    by_cases hl : index ∈ writes.map Prod.fst
    · rw [if_pos hl, if_pos (.inr hl)]
    rw [if_neg hl]
    by_cases hh : index = write.1
    · rw [if_pos hh, if_pos (.inl hh), hf, hh]
    · rw [if_neg hh, if_neg (not_or.mpr ⟨hh, hl⟩)]

end Eredu.Scatter
