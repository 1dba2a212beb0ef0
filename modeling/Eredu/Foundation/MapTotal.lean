import Mathlib.Tactic

/-!
# Totals over the values of an ordered map

`total f map` adds up `f` over the values of a `TreeMap`. A total depends only on
the lookups of the map, and replacing, adding or removing an entry changes it by
that entry.
-/

namespace Eredu

open Std List TreeMap

variable {α β : Type} [Ord α]

variable (f : β → Nat) (map : TreeMap α β)

def total : Nat := (map.toList.map fun entry => f entry.2).sum

theorem size_eq_total : map.size = total (fun _ => 1) map := by
  simp [total]

theorem countP_eq_total (test : β → Bool) (map : TreeMap α β) :
    (map.toList.map (·.2)).countP test = total (fun value => if test value then 1 else 0) map := by
  unfold total
  induction map.toList with
  | nil => rfl
  | cons entry rest ih =>
    rw [map_cons, countP_cons, map_cons, sum_cons, ih, add_comm]

theorem total_filter_add (keep : α → Bool) :
    total f (map.filter fun key _ => keep key) + total f (map.filter fun key _ => !keep key) =
      total f map := by
  simp only [total, toList_filter]
  induction map.toList with
  | nil => rfl
  | cons entry rest ih => cases hk : keep entry.1 <;> simp [hk] <;> omega

variable [TransOrd α] [LawfulEqOrd α] {first second : TreeMap α β}

theorem total_congr (hs : ∀ key : α, first[key]? = second[key]?) :
    total f first = total f second := by
  rw [total, total, (TreeMap.Equiv.of_forall_constGet?_eq hs).toList_eq]

variable {map : TreeMap α β}

theorem total_eq_zero {f : β → Nat}
    (hz : ∀ (key : α) (value : β), map[key]? = some value → f value = 0) : total f map = 0 := by
  unfold total
  rw [sum_eq_zero_iff]
  intro measured hl
  obtain ⟨⟨key, value⟩, he, rfl⟩ := mem_map.mp hl
  exact hz key value (mem_toList_iff_getElem?_eq_some.mp he)

/-- A total depends only on what the measure reads of the values. -/
theorem total_congr_read {γ : Type} {read : β → γ} (f : γ → Nat)
    (hs : ∀ key : α, first[key]?.map read = second[key]?.map read) :
    total (fun value => f (read value)) first = total (fun value => f (read value)) second := by
  have hm : ∀ map : TreeMap α β,
      total (fun value => f (read value)) map = total f (map.map fun _ value => read value) := by
    intro map
    simp [total, Function.comp_def]
  rw [hm, hm]
  apply total_congr
  intro key
  simpa using hs key

variable (map)

theorem lookup_filter (keep : α → Bool) (key : α) :
    (map.filter fun key _ => keep key)[key]? = if keep key then map[key]? else none := by
  rw [getElem?_filter']
  cases map[key]? <;> cases keep key <;> simp

variable [DecidableEq α] (key other : α)

theorem lookup_insert (value : β) :
    (map.insert key value)[other]? = if other = key then some value else map[other]? := by
  simp only [TreeMap.getElem?_insert, Std.compare_eq_iff_eq, eq_comm (a := key)]

theorem lookup_erase : (map.erase key)[other]? = if other = key then none else map[other]? := by
  simp only [getElem?_erase, Std.compare_eq_iff_eq, eq_comm (a := key)]

variable {map}

variable {key : α}

theorem total_insert_absent (value : β) (ha : map[key]? = none) :
    total f (map.insert key value) = f value + total f map := by
  have hi := toList_insert_perm (t := map) (k := key) (v := value)
  have ho : (map.toList.filter fun entry => decide ¬(key == entry.1) = true) = map.toList := by
    refine filter_eq_self.mpr fun entry hm => ?_
    have hf := mem_toList_iff_getElem?_eq_some.mp hm
    simp only [decide_eq_true_eq, beq_iff_eq]
    rintro rfl
    rw [ha] at hf
    cases hf
  rw [ho] at hi
  simpa [total] using (hi.map fun entry => f entry.2).sum_eq

variable {value : β}

theorem total_erase (hf : map[key]? = some value) :
    total f map = f value + total f (map.erase key) := by
  have ha : (map.erase key)[key]? = none := by simp
  rw [← total_insert_absent f value ha]
  refine total_congr f fun other => ?_
  rw [lookup_insert, lookup_erase]
  split
  · rename_i hs
    rw [hs, hf]
  · rfl

theorem total_insert {old : β} (value : β) (hf : map[key]? = some old) :
    total f (map.insert key value) + f old = f value + total f map := by
  have hr : total f (map.insert key value) = f value + total f (map.erase key) := by
    have ha : (map.erase key)[key]? = none := by simp
    rw [← total_insert_absent f value ha]
    refine total_congr f fun other => ?_
    simp only [lookup_insert, lookup_erase]
    split <;> rfl
  rw [hr, total_erase f hf]
  omega

theorem value_le_total (hf : map[key]? = some value) : f value ≤ total f map := by
  rw [total_erase f hf]
  omega

theorem total_filter_singleton (hf : map[key]? = some value) :
    total f (map.filter fun other _ => decide (other = key)) = f value := by
  have hr : total f (map.filter fun other _ => !decide (other = key)) =
      total f (map.erase key) := by
    refine total_congr f fun other => ?_
    rw [lookup_filter, lookup_erase]
    by_cases hsa : other = key <;> simp
  have hs := total_filter_add f map fun other => decide (other = key)
  rw [hr, total_erase f hf] at hs
  omega

end Eredu
