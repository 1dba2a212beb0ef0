import Eredu.Foundation.Effect
import Eredu.Foundation.Word

/-!
# Checked operations with errors

A checked operation on words that has no result becomes an error of the caller.
-/

namespace Eredu

open Effect (Concludes)

/-- `ok_or`: a missing result is an error. -/
def required {ε α : Type} (cause : ε) : Option α → Except ε α
  | some value => .ok value
  | none => .error cause

/-- A condition under which the caller returns early. -/
def reject {ε : Type} (cause : ε) (bad : Prop) [Decidable bad] : Except ε Unit :=
  if bad then .error cause else .ok ()

def checkedProduct {ε : Type} (cause : ε) (factors : List Nat) : Except ε Nat :=
  factors.foldlM (fun total factor => required cause (Word.checkedMul total factor)) 1

section

variable {ε α : Type} {cause : ε}

@[simp]
theorem required_some (value : α) : required cause (some value) = .ok value := rfl

theorem required_eq_ok {result : Option α} {value : α} :
    required cause result = .ok value ↔ result = some value := by
  cases result <;> simp [required]

theorem reject_eq_ok {bad : Prop} [Decidable bad] {done : Unit} :
    reject cause bad = .ok done ↔ ¬bad := by
  unfold reject
  split <;> simp_all

theorem concludes_required {result : Option α} {good : α → Prop}
    (hh : ∀ value, result = some value → good value) :
    Concludes (required cause result) good fun _ => True := by
  cases result with
  | none => trivial
  | some value => exact hh value rfl

theorem concludes_checkedProduct (factors : List Nat) : Concludes (checkedProduct cause factors)
      (fun total => total = factors.prod ∧ total ≤ Word.maximum) fun _ => True := by
  have run : ∀ start, start ≤ Word.maximum →
      Concludes (factors.foldlM
          (fun total factor => required cause (Word.checkedMul total factor)) start)
        (fun total => total = start * factors.prod ∧ total ≤ Word.maximum) fun _ => True := by
    induction factors with
    | nil => exact fun start hfi => ⟨by simp, hfi⟩
    | cons factor factors ih =>
      intro start _
      apply (concludes_required fun next hf => Word.checkedMul_eq_some.mp hf).bind
      rintro next ⟨rfl, hsm⟩
      apply (ih _ hsm).mono
      rintro total ⟨hs, hb⟩
      exact ⟨by rw [hs, List.prod_cons, mul_assoc], hb⟩
  apply (run 1 (by decide)).mono
  rintro total ⟨hs, hb⟩
  exact ⟨by rw [hs, one_mul], hb⟩

end

end Eredu
