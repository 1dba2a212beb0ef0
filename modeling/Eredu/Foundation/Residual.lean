import Mathlib

/-!
# Drawing from one distribution through another

A proposal is drawn with mass `q`, kept with probability `min (p / q) 1` and
otherwise replaced by a draw from the normalized positive part of `p - q`. The
token that comes out then has mass `p`. The arithmetic of that fact holds over
any ordered field; the last section reads the unit draw as Lebesgue measure on
`[0, 1)`.
-/

namespace Eredu

section Arithmetic

variable {ι 𝕜 : Type} [Field 𝕜] [LinearOrder 𝕜] [IsStrictOrderedRing 𝕜] (support : Finset ι)

/-- A normalized mass function supported on a finite set. -/
structure IsMass (p : ι → 𝕜) : Prop where
  nonneg : ∀ i, 0 ≤ p i
  outside : ∀ i, i ∉ support → p i = 0
  total : ∑ i ∈ support, p i = 1

variable (p q : ι → 𝕜) (i : ι)

def excess : 𝕜 := max (p i - q i) 0

def excessMass : 𝕜 := ∑ i ∈ support, excess p q i

def keep (p q : 𝕜) : 𝕜 := if q ≤ 0 then 1 else min (p / q) 1

omit [IsStrictOrderedRing 𝕜] in
theorem keep_le_one (p q : 𝕜) : keep p q ≤ 1 := by
  unfold keep
  split
  · exact le_rfl
  · exact min_le_right _ _

theorem keep_nonneg {p q : 𝕜} (hp : 0 ≤ p) : 0 ≤ keep p q := by
  unfold keep
  split
  · exact zero_le_one
  · next hpo => exact le_min (div_nonneg hp (not_le.mp hpo).le) zero_le_one

theorem mul_keep {p q : 𝕜} (hp : 0 ≤ p) (hq : 0 ≤ q) : q * keep p q = min p q := by
  unfold keep
  split
  · next hv =>
    have : q = 0 := le_antisymm hv hq
    simp [this, hp]
  · next hpo =>
    have hpo : 0 < q := not_le.mp hpo
    rw [mul_min_of_nonneg _ _ hq, mul_div_cancel₀ _ hpo.ne', mul_one]

theorem min_add_excess : min (p i) (q i) + excess p q i = p i := by
  unfold excess
  rcases le_total (p i) (q i) with hb | ha
  · rw [min_eq_left hb, max_eq_right (sub_nonpos.mpr hb), add_zero]
  · rw [min_eq_right ha, max_eq_left (sub_nonneg.mpr ha), add_sub_cancel]

variable {support : Finset ι} {p q : ι → 𝕜}

omit [IsStrictOrderedRing 𝕜] in
theorem excess_nonneg : 0 ≤ excess p q i := le_max_right _ _

section

variable (hp : IsMass support p)
include hp

section

variable (hq : IsMass support q)
include hq

/-- What is rejected has the mass of the positive part of the difference. -/
theorem sum_rejected : ∑ i ∈ support, q i * (1 - keep (p i) (q i)) = excessMass support p q := by
  have hsp : ∑ i ∈ support, q i * (1 - keep (p i) (q i)) =
      ∑ i ∈ support, q i - ∑ i ∈ support, min (p i) (q i) := by
    rw [← Finset.sum_sub_distrib]
    exact Finset.sum_congr rfl fun i _ => by
      rw [mul_sub, mul_one, mul_keep (hp.nonneg i) (hq.nonneg i)]
  have hs : ∑ i ∈ support, min (p i) (q i) + excessMass support p q = 1 := by
    rw [excessMass, ← Finset.sum_add_distrib, ← hp.total]
    exact Finset.sum_congr rfl fun i _ => min_add_excess p q i
  rw [hsp, hq.total, ← hs, add_sub_cancel_left]

/-- The mass kept at `i` and the share of the rejected mass that the residual `r` sends there add
up to `p i`. The residual only matters when something can be rejected. -/
theorem kept_add_replaced (r : ι → 𝕜)
    (hn : excessMass support p q ≠ 0 → ∀ i, r i = excess p q i / excessMass support p q) (i : ι) :
    q i * keep (p i) (q i) + (∑ j ∈ support, q j * (1 - keep (p j) (q j))) * r i = p i := by
  rw [mul_keep (hp.nonneg i) (hq.nonneg i), sum_rejected hp hq]
  by_cases he : excessMass support p q = 0
  · have hv : excess p q i = 0 := by
      by_cases hi : i ∈ support
      · exact (Finset.sum_eq_zero_iff_of_nonneg fun j _ => excess_nonneg j).mp he i hi
      · simp [excess, hp.outside i hi, hq.outside i hi]
    rw [he, zero_mul, add_zero]
    simpa [hv] using min_add_excess p q i
  · rw [hn he i, mul_div_cancel₀ _ he]
    exact min_add_excess p q i

/-- The normalized positive part of a difference is a mass function. -/
theorem IsMass.residual {r : ι → 𝕜} (hr : excessMass support p q ≠ 0)
    (hn : ∀ i, r i = excess p q i / excessMass support p q) : IsMass support r where
  nonneg i := by
    rw [hn i]
    exact div_nonneg (excess_nonneg i) (Finset.sum_nonneg fun j _ => excess_nonneg j)
  outside i ho := by
    rw [hn i]
    simp [excess, hp.outside i ho, hq.outside i ho]
  total := by
    rw [Finset.sum_congr rfl fun i _ => hn i, ← Finset.sum_div]
    exact div_self hr

/-- Summing what a proposal contributes to `i` over all proposals gives the mass of `i`. -/
theorem sum_contributions [DecidableEq ι] (r : ι → 𝕜) (hn : excessMass support p q ≠ 0 →
      ∀ i, r i = excess p q i / excessMass support p q) (i : ι) : ∑ j ∈ support, q j *
      ((if j = i then keep (p j) (q j) else 0) + (1 - keep (p j) (q j)) * r i) = p i := by
  have hk : ∑ j ∈ support, q j * (if j = i then keep (p j) (q j) else 0) =
      q i * keep (p i) (q i) := by
    simp only [mul_ite, mul_zero, Finset.sum_ite_eq']
    split
    · rfl
    · next ho => rw [hq.outside i ho, zero_mul]
  have hr : ∑ j ∈ support, q j * ((1 - keep (p j) (q j)) * r i) =
      (∑ j ∈ support, q j * (1 - keep (p j) (q j))) * r i := by
    rw [Finset.sum_mul]
    exact Finset.sum_congr rfl fun j _ => (mul_assoc _ _ _).symm
  simp only [mul_add, Finset.sum_add_distrib, hk, hr]
  exact kept_add_replaced hp hq r hn i

end

end

end Arithmetic

theorem cast_keep (p q : ℚ) : ((keep p q : ℚ) : ℝ) = keep (p : ℝ) (q : ℝ) := by
  unfold keep
  split_ifs with hv hv' hv'
  · exact Rat.cast_one
  · exact absurd (Rat.cast_nonpos.mpr hv) hv'
  · exact absurd (Rat.cast_nonpos.mp hv') hv
  · push_cast
    rfl

section Uniform

open MeasureTheory Set

theorem volume_le_inter_unit {a : ℝ} (hn : 0 ≤ a) (hl : a ≤ 1) :
    volume (Iic a ∩ Ico (0 : ℝ) 1) = ENNReal.ofReal a := by
  rcases hl.lt_or_eq with hb | rfl
  · have : Iic a ∩ Ico (0 : ℝ) 1 = Icc 0 a := by
      ext x
      constructor
      · rintro ⟨le, ge, -⟩
        exact ⟨ge, le⟩
      · rintro ⟨ge, le⟩
        exact ⟨le, ge, le.trans_lt hb⟩
    rw [this, Real.volume_Icc, sub_zero]
  · have : Iic (1 : ℝ) ∩ Ico (0 : ℝ) 1 = Ico 0 1 := inter_eq_right.mpr fun _ hi => hi.2.le
    rw [this, Real.volume_Ico, sub_zero]

theorem volume_gt_inter_unit {a : ℝ} (hn : 0 ≤ a) :
    volume (Ioi a ∩ Ico (0 : ℝ) 1) = ENNReal.ofReal (1 - a) := by
  have : Ioi a ∩ Ico (0 : ℝ) 1 = Ioo a 1 := by
    ext x
    constructor
    · rintro ⟨gt, -, lt⟩
      exact ⟨gt, lt⟩
    · rintro ⟨gt, lt⟩
      exact ⟨gt, (hn.trans_lt gt).le, lt⟩
  rw [this, Real.volume_Ioo]

end Uniform

end Eredu
