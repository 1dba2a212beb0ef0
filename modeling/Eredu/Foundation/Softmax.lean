import Mathlib.Algebra.BigOperators.Group.List.Basic
import Mathlib.Algebra.Order.BigOperators.Group.List
import Mathlib.Algebra.Order.Field.Basic
import Mathlib.Tactic.Ring
import Mathlib.Tactic.FieldSimp

/-!
# Weighted means in one pass

A weighted mean whose weights are exponentials can be taken in one pass over the
keys: a row keeps a reference score, the sum of the weights and the weighted sum
of the values, both scaled down by the weight of the reference. Rows over
different keys are added once they have the same reference. The reference is
arbitrary: `Row.Holds` says what a row stands for, whatever its reference is.
-/

namespace Eredu.Softmax

variable {K : Type} [Field K] [LinearOrder K]

/-- A positive function that turns sums into products. -/
structure Exponential (K : Type) [Field K] [LinearOrder K] where
  exp : K → K
  pos : ∀ score, 0 < exp score
  add : ∀ first second, exp (first + second) = exp first * exp second

namespace Exponential

variable (exponential : Exponential K) (first second : K)

theorem sub :
    exponential.exp (first - second) = exponential.exp (-second) * exponential.exp first := by
  rw [sub_eq_add_neg, exponential.add, mul_comm]

theorem rebase :
    exponential.exp (-first) * exponential.exp (first - second) = exponential.exp (-second) := by
  rw [← exponential.add, neg_add_eq_sub, sub_sub_cancel_left]

end Exponential

structure Key (K : Type) where
  score : K
  value : K

def mass (exponential : Exponential K) (keys : List (Key K)) : K :=
  (keys.map fun key => exponential.exp key.score).sum

def moment (exponential : Exponential K) (keys : List (Key K)) : K :=
  (keys.map fun key => exponential.exp key.score * key.value).sum

variable (first second : List (Key K))

section

variable (exponential : Exponential K)
include exponential

theorem mass_cons (key : Key K) (keys : List (Key K)) :
    mass exponential (key :: keys) = exponential.exp key.score + mass exponential keys := by
  simp [mass]

theorem moment_cons (key : Key K) (keys : List (Key K)) : moment exponential (key :: keys) =
      exponential.exp key.score * key.value + moment exponential keys := by
  simp [moment]

theorem mass_nonneg [IsStrictOrderedRing K] (keys : List (Key K)) : 0 ≤ mass exponential keys := by
  apply List.sum_nonneg
  intro weight hl
  obtain ⟨key, _, rfl⟩ := List.mem_map.mp hl
  exact (exponential.pos key.score).le

theorem mass_pos [IsStrictOrderedRing K] {keys : List (Key K)} (hn : keys ≠ []) :
    0 < mass exponential keys := by
  cases keys with
  | nil => exact absurd rfl hn
  | cons key keys =>
    have hr := mass_nonneg exponential keys
    have hf := exponential.pos key.score
    exact add_pos_of_pos_of_nonneg hf hr

@[simp]
theorem mass_append :
    mass exponential (first ++ second) = mass exponential first + mass exponential second := by
  simp [mass]

@[simp]
theorem moment_append :
    moment exponential (first ++ second) = moment exponential first + moment exponential second := by
  simp [moment]

end

/-- The state of one row: the reference, the scaled mass and the scaled moment. -/
structure Row (K : Type) where
  reference : K
  sum : K
  weighted : K

/-- A row stands for a mass and a moment. -/
structure Row.Holds (exponential : Exponential K) (row : Row K) (total weighted : K) : Prop where
  sum : row.sum = exponential.exp (-row.reference) * total
  weighted : row.weighted = exponential.exp (-row.reference) * weighted

def Row.over (exponential : Exponential K) (reference : K) {ι : Type} (allowed : ι → Bool)
    (key : ι → Key K) (candidates : List ι) : Row K where
  reference := reference
  sum := (candidates.map fun candidate =>
    exponential.exp ((key candidate).score - reference) * if allowed candidate then 1 else 0).sum
  weighted := (candidates.map fun candidate =>
    exponential.exp ((key candidate).score - reference) * (if allowed candidate then 1 else 0) *
      (key candidate).value).sum

theorem Row.over_cons (exponential : Exponential K) (reference : K) {ι : Type} (allowed : ι → Bool)
    (key : ι → Key K) (candidate : ι) (candidates : List ι) :
    (Row.over exponential reference allowed key (candidate :: candidates)).sum =
      exponential.exp ((key candidate).score - reference) * (if allowed candidate then 1 else 0) +
        (Row.over exponential reference allowed key candidates).sum ∧
    (Row.over exponential reference allowed key (candidate :: candidates)).weighted =
      exponential.exp ((key candidate).score - reference) * (if allowed candidate then 1 else 0) *
          (key candidate).value +
        (Row.over exponential reference allowed key candidates).weighted := by
  constructor <;> simp [Row.over]

theorem Row.holds_over (exponential : Exponential K) (reference : K) {ι : Type} (allowed : ι → Bool)
    (key : ι → Key K) (candidates : List ι) :
    (Row.over exponential reference allowed key candidates).Holds exponential
      (mass exponential ((candidates.filter allowed).map key))
      (moment exponential ((candidates.filter allowed).map key)) := by
  induction candidates with
  | nil => constructor <;> simp [Row.over, mass, moment]
  | cons candidate candidates ih =>
    have hs := Row.over_cons exponential reference allowed key candidate candidates
    by_cases hv : allowed candidate = true
    · rw [if_pos hv] at hs
      rw [List.filter_cons_of_pos hv, List.map_cons, mass_cons, moment_cons]
      constructor
      · rw [hs.1, ih.sum, exponential.sub, mul_one]
        exact (mul_add _ _ _).symm
      · rw [hs.2, ih.weighted, exponential.sub, mul_one, mul_assoc]
        exact (mul_add _ _ _).symm
    · rw [if_neg hv, mul_zero, zero_mul, zero_add, zero_add] at hs
      rw [List.filter_cons_of_neg hv]
      constructor
      · rw [hs.1]
        exact ih.sum
      · rw [hs.2]
        exact ih.weighted

def Row.rebase (exponential : Exponential K) (reference : K) (row : Row K) : Row K where
  reference := reference
  sum := row.sum * exponential.exp (row.reference - reference)
  weighted := row.weighted * exponential.exp (row.reference - reference)

variable {exponential : Exponential K} {weighted total : K} {row : Row K}

theorem Row.Holds.rebase (hh : row.Holds exponential total weighted) (reference : K) :
    (row.rebase exponential reference).Holds exponential total weighted := by
  have hm := exponential.rebase row.reference reference
  constructor
  · simp only [Row.rebase, hh.sum]
    rw [mul_right_comm, hm]
  · simp only [Row.rebase, hh.weighted]
    rw [mul_right_comm, hm]

def Row.add (first second : Row K) : Row K where
  reference := first.reference
  sum := first.sum + second.sum
  weighted := first.weighted + second.weighted

theorem Row.Holds.add {first second : Row K} {moreTotal moreWeighted : K}
    (hl : first.Holds exponential total weighted)
    (hr : second.Holds exponential moreTotal moreWeighted)
    (hs : second.reference = first.reference) :
    (first.add second).Holds exponential (total + moreTotal) (weighted + moreWeighted) := by
  constructor
  · simp only [Row.add, hl.sum, hr.sum, hs]
    exact (mul_add _ _ _).symm
  · simp only [Row.add, hl.weighted, hr.weighted, hs]
    exact (mul_add _ _ _).symm

/-- A weight without a value, which takes part in the mass only. -/
def Row.weightOnly (exponential : Exponential K) (reference score : K) : Row K where
  reference := reference
  sum := exponential.exp (score - reference)
  weighted := 0

theorem Row.holds_weightOnly (exponential : Exponential K) (reference score : K) :
    (Row.weightOnly exponential reference score).Holds exponential (exponential.exp score) 0 :=
  ⟨exponential.sub score reference, (mul_zero _).symm⟩

/-- The mean that a row stands for, where the mass is not zero. -/
def Row.mean (row : Row K) : K := row.weighted / if 0 < row.sum then row.sum else 1

theorem Row.Holds.sum_pos_iff [IsStrictOrderedRing K] (hh : row.Holds exponential total weighted) :
    0 < row.sum ↔ 0 < total := by
  rw [hh.sum, mul_pos_iff_of_pos_left (exponential.pos _)]

theorem Row.Holds.mean_eq [IsStrictOrderedRing K] (hh : row.Holds exponential total weighted)
    (hp : 0 < total) : row.mean = weighted / total := by
  rw [Row.mean, if_pos (hh.sum_pos_iff.mpr hp), hh.sum, hh.weighted,
    mul_div_mul_left _ _ (exponential.pos _).ne']

end Eredu.Softmax
