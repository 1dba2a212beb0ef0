import Mathlib.Tactic

/-!
# Checked arithmetic on 64-bit words

A word is a natural number. The operations that test for overflow return nothing
where the result does not fit, and the saturating ones stop at the largest word.
-/

namespace Eredu.Word

open Nat

def maximum : Nat := 2 ^ 64 - 1

variable (left right : Nat)

def checkedAdd : Option Nat :=
  if left + right ≤ maximum then some (left + right) else none

def checkedMul : Option Nat :=
  if left * right ≤ maximum then some (left * right) else none

def checkedSub : Option Nat :=
  if right ≤ left then some (left - right) else none

def saturatingAdd : Nat := min (left + right) maximum

theorem checkedAdd_eq_some {left right sum : Nat} :
    checkedAdd left right = some sum ↔ sum = left + right ∧ sum ≤ maximum := by
  unfold checkedAdd
  split
  · rename_i hf
    constructor
    · rintro ⟨⟩
      exact ⟨rfl, hf⟩
    · rintro ⟨rfl, -⟩
      rfl
  · rename_i hl
    constructor
    · intro hn
      cases hn
    · rintro ⟨rfl, hf⟩
      exact absurd hf hl

theorem checkedMul_eq_some {left right product : Nat} :
    checkedMul left right = some product ↔ product = left * right ∧ product ≤ maximum := by
  unfold checkedMul
  split
  · rename_i hf
    constructor
    · rintro ⟨⟩
      exact ⟨rfl, hf⟩
    · rintro ⟨rfl, -⟩
      rfl
  · rename_i hl
    constructor
    · intro hn
      cases hn
    · rintro ⟨rfl, hf⟩
      exact absurd hf hl

theorem checkedSub_eq_some {left right difference : Nat} :
    checkedSub left right = some difference ↔ right ≤ left ∧ difference = left - right := by
  unfold checkedSub
  split
  · rename_i hr
    simp [hr, eq_comm]
  · rename_i hs
    simp [hs]

def isPowerOfTwo (value : Nat) : Bool := value != 0 && value &&& (value - 1) == 0

theorem isPowerOfTwo_iff {value : Nat} : isPowerOfTwo value ↔ ∃ exponent, value = 2 ^ exponent := by
  unfold isPowerOfTwo
  rw [Bool.and_eq_true, bne_iff_ne, beq_iff_eq]
  constructor
  · rintro ⟨hn, hm⟩
    exact (and_sub_one_eq_zero_iff_isPowerOfTwo hn).mp hm
  · rintro ⟨exponent, rfl⟩
    have hn : 2 ^ exponent ≠ 0 := (Nat.two_pow_pos exponent).ne'
    exact ⟨hn, (and_sub_one_eq_zero_iff_isPowerOfTwo hn).mpr ⟨exponent, rfl⟩⟩

theorem isPowerOfTwo_pos {value : Nat} (hp : isPowerOfTwo value) : 0 < value := by
  obtain ⟨exponent, rfl⟩ := isPowerOfTwo_iff.mp hp
  exact Nat.two_pow_pos exponent

def complement (value : Nat) : Nat := maximum - value

/-- Masking the low bits of a word rounds it down to a multiple of a power of two. -/
theorem and_complement {value alignment : Nat} (hf : value ≤ maximum)
    (hp : isPowerOfTwo alignment) (hs : alignment ≤ maximum) :
    value &&& complement (alignment - 1) = value / alignment * alignment := by
  obtain ⟨exponent, rfl⟩ := isPowerOfTwo_iff.mp hp
  have hi : 2 ^ exponent - 1 < 2 ^ 64 := by
    unfold maximum at hs
    omega
  have hm : complement (2 ^ exponent - 1) = 2 ^ 64 - ((2 ^ exponent - 1) + 1) := by
    unfold complement maximum
    omega
  apply eq_of_testBit_eq
  intro index
  rw [hm, testBit_and, testBit_two_pow_sub_succ hi, testBit_two_pow_sub_one,
    ← shiftRight_eq_div_pow, ← shiftLeft_eq, testBit_shiftLeft, testBit_shiftRight]
  by_cases hh : index < 64
  · by_cases low : index < exponent
    · simp [low]
    · simp [hh,
        show exponent ≤ index by omega]
  · have ha : value.testBit index = false := by
      apply testBit_lt_two_pow
      have hl := Nat.pow_le_pow_right (n := 2) (by norm_num) (Nat.le_of_not_lt hh)
      unfold maximum at hf
      omega
    rw [ha, Bool.false_and, eq_comm, Bool.and_eq_false_iff]
    by_cases low : exponent ≤ index
    · right
      rw [show exponent + (index - exponent) = index by omega, ha]
    · left
      simpa using low

end Eredu.Word
