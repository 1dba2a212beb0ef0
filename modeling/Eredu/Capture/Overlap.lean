import Eredu.Foundation.Word
import Mathlib.Algebra.Order.Floor.Div
import Mathlib.Data.Int.ModEq
import Mathlib.Tactic

/-!
# Overlap of strided fragments

Two capture fragments overlap when they share a destination cell. On each axis the
selected indices form an arithmetic progression, and the source solves the two
congruences with extended Euclid before it asks whether the first common index at or
above both starts is within both ends. An operation that leaves its integer type, or
divides by zero, returns nothing.
-/

namespace Eredu.Capture

open Word Nat Option

def wide (value : Nat) : Option Nat := if value < 2 ^ 128 then some value else none

def Signed (value : Int) : Prop := -2 ^ 127 ≤ value ∧ value < 2 ^ 127

instance : DecidablePred Signed := fun _ => inferInstanceAs (Decidable (_ ∧ _))

theorem wide_of_lt {value : Nat} (hf : value < 2 ^ 128) : wide value = some value := if_pos hf

theorem guard_of {p : Prop} [Decidable p] (hp : p) : (guard p : Option Unit) = some () := if_pos hp

def euclid (gcd remainder : Nat) : Nat :=
  if remainder = 0 then gcd else euclid remainder (gcd % remainder)
termination_by remainder
decreasing_by exact mod_lt _ (pos_of_ne_zero ‹_›)

/-- Extended Euclid, keeping the coefficient of the first number only. -/
def coefficient (oldR r oldS s : Int) : Option Int :=
  if r = 0 then some oldS
  else
    let quotient := oldR.tdiv r
    if ∀ value ∈ [quotient, quotient * r, oldR - quotient * r, quotient * s, oldS - quotient * s],
        Signed value then
      coefficient r (oldR - quotient * r) s (oldS - quotient * s)
    else none
termination_by r.natAbs
decreasing_by
  rw [mul_comm, ← Int.tmod_def, Int.natAbs_tmod]
  exact mod_lt _ (Int.natAbs_pos.mpr ‹_›)

theorem euclid_eq_gcd (gcd remainder : Nat) : euclid gcd remainder = gcd.gcd remainder := by
  fun_induction euclid gcd remainder with
  | case1 gcd => exact (Nat.gcd_zero_right gcd).symm
  | case2 gcd remainder _ ih => rw [ih, Nat.gcd_comm, ← Nat.gcd_rec, Nat.gcd_comm]

theorem signed_of_le (size : Nat) {value : Int} (hs : size ≤ maximum)
    (hv : value = size ∨ value = -size) : Signed value := by
  unfold maximum at hs
  constructor <;> omega

/-- The coefficients alternate in sign, and their sizes weighted by the two remainders
always add up to the modulus. That keeps every intermediate value a word. -/
theorem coefficient_inverts {value modulus : Nat} (hm : modulus ≤ maximum) :
    ∀ {r oldR u v : Nat} {sign : Int}, sign = 1 ∨ sign = -1 → oldR ≤ maximum → r ≤ maximum →
      0 < oldR → oldR.Coprime r → v * oldR + u * r = modulus →
      sign * u * value ≡ oldR [ZMOD modulus] → -(sign * v) * value ≡ r [ZMOD modulus] →
      ∃ inverse, coefficient oldR r (sign * u) (-(sign * v)) = some inverse ∧
        inverse * value ≡ 1 [ZMOD modulus] := by
  intro r
  induction r using Nat.strong_induction_on with
  | _ r ih =>
    intro oldR u v sign hs ho hi hp hc hw hf hl
    rw [coefficient]
    split
    · rename_i hz
      obtain rfl : r = 0 := by exact_mod_cast hz
      rw [(coprime_zero_right oldR).mp hc] at hf
      exact ⟨_, rfl, hf⟩
    · rename_i hz
      have hr : 0 < r := pos_of_ne_zero (by exact_mod_cast hz)
      obtain ⟨quotient, hq⟩ : ∃ quotient, oldR / r = quotient := ⟨_, rfl⟩
      have hd : quotient * r + oldR % r = oldR := hq ▸ div_add_mod' oldR r
      have ht : (oldR : Int).tdiv r = quotient := by rw [← Int.ofNat_tdiv, hq]
      have hn : (oldR : Int) - quotient * r = (oldR % r : Nat) := by
        rw [sub_eq_iff_eq_add', ← cast_mul, ← cast_add, hd]
      have hg : sign * u - quotient * -(sign * v) = -(-sign * (u + quotient * v : Nat)) := by
        push_cast
        ring
      have hk : (u + quotient * v) * r + v * (oldR % r) = modulus := by
        rw [← hw, ← hd]
        simp only [add_mod, mul_mod_left, mod_mod, zero_add]
        ring
      have hb : u + quotient * v ≤ modulus := by nlinarith
      have hqr : quotient ≤ quotient * r := Nat.le_mul_of_pos_right _ hr
      simp only [ht, hn, hg]
      rw [if_pos]
      · have hv : -sign * v = -(sign * v) := neg_mul ..
        rw [← hv] at hl ⊢
        refine ih _ (mod_lt _ hr) (by omega) hi (by omega) hr ?_ hk hl ?_
        · rwa [coprime_comm, Nat.Coprime, ← gcd_rec, ← Nat.Coprime, coprime_comm]
        · rw [← hg, ← hn, sub_mul, mul_assoc (quotient : Int), ← neg_mul]
          exact hf.sub (hl.mul_left _)
      · simp only [List.forall_mem_cons]
        refine ⟨signed_of_le quotient (by omega) (.inl rfl),
          signed_of_le (quotient * r) (by omega) (.inl (cast_mul ..).symm),
          signed_of_le (oldR % r) (by omega) (.inl rfl), signed_of_le (quotient * v) (by omega) ?_,
          signed_of_le (u + quotient * v) (by omega) ?_, nofun⟩
        all_goals rcases hs with rfl | rfl <;> simp

theorem exists_inverse {value modulus : Nat} (hv : value ≤ maximum)
    (hm : modulus ≤ maximum) (hp : 0 < value) (hc : value.Coprime modulus) :
    ∃ inverse, coefficient value modulus 1 0 = some inverse ∧
      inverse * value ≡ 1 [ZMOD modulus] := by
  have hs := @coefficient_inverts value modulus hm modulus value 1 0 1 (.inl rfl) hv hm hp hc
  simpa using hs (by simp) (by simp) (by simp [Int.ModEq])

/-- An index both progressions reach when continued without end. -/
def commonIndex (a stepA gcd modulus : Nat) (difference : Int) : Option Nat :=
  if modulus = 1 then some a
  else do
    guard (modulus ≠ 0)
    let oldS ← coefficient (stepA / gcd : Nat) modulus 1 0
    let inverse := (oldS % modulus).toNat
    let difference := (difference.tdiv gcd % modulus).toNat
    let product ← wide (difference * inverse)
    let offset := product % modulus
    wide (a + (← wide (stepA * offset)))

/-- The first index at or above `low` that is `first` up to whole periods. -/
def firstInRange (low first period : Nat) : Option Nat := do
  guard (period ≠ 0)
  let residue := first % period
  if residue < low then
    wide (residue + (← wide ((low - residue) ⌈/⌉ period * period)))
  else
    return residue

theorem commonIndex_solves {a gcd reduced modulus : Nat} (share : Int) (ha : a ≤ maximum)
    (hl : gcd * reduced ≤ maximum) (hr : gcd * modulus ≤ maximum) (hg : 0 < gcd)
    (hp : 0 < reduced) (hm : 0 < modulus) (hc : reduced.Coprime modulus) :
    ∃ first : Nat, commonIndex a (gcd * reduced) gcd modulus (gcd * share) = some first ∧
      first ≡ a [ZMOD gcd * reduced] ∧ first ≡ a + gcd * share [ZMOD gcd * modulus] := by
  unfold commonIndex
  split
  · rename_i ho
    subst ho
    refine ⟨a, rfl, rfl, (Int.modEq_iff_dvd.mpr ⟨share, ?_⟩)⟩
    ring
  · have hmw : modulus ≤ maximum := (Nat.le_mul_of_pos_left _ hg).trans hr
    obtain ⟨oldS, hs, hi⟩ := exists_inverse ((Nat.le_mul_of_pos_left _ hg).trans hl) hmw hp hc
    have hb : ∀ value : Int, (value % modulus).toNat < modulus := by
      intro value
      have := Int.emod_lt_of_pos value (Int.natCast_pos.mpr hm)
      omega
    have he : ∀ value : Int, ((value % modulus).toNat : Int) ≡ value [ZMOD modulus] := by
      intro value
      rw [Int.toNat_of_nonneg (Int.emod_nonneg value (by omega))]
      exact Int.mod_modEq ..
    rw [guard_of hm.ne', Nat.mul_div_cancel_left _ hg, hs, Int.mul_tdiv_cancel_left _ (by omega)]
    have hw : (share % modulus).toNat * (oldS % modulus).toNat ≤ maximum * maximum :=
      Nat.mul_le_mul ((hb share).le.trans hmw) ((hb oldS).le.trans hmw)
    obtain ⟨offset, ho⟩ : ∃ offset,
        (share % modulus).toNat * (oldS % modulus).toNat % modulus = offset := ⟨_, rfl⟩
    have hof : offset < modulus := ho ▸ mod_lt _ hm
    have hf : gcd * reduced * offset ≤ maximum * (maximum - 1) := Nat.mul_le_mul hl (by omega)
    have hk : (offset : Int) ≡ share * oldS [ZMOD modulus] := by
      rw [← ho]
      push_cast
      exact (Int.mod_modEq _ _).trans ((he share).mul (he oldS))
    unfold maximum at *
    refine ⟨a + gcd * reduced * offset, ?_, ?_, ?_⟩
    · simp only [bind_eq_bind, bind_some]
      rw [wide_of_lt (by omega), bind_some, ho, wide_of_lt (by omega), bind_some,
        wide_of_lt (by omega)]
    · push_cast
      exact Int.modEq_iff_dvd.mpr ⟨-offset, by ring⟩
    · have hx : (reduced : Int) * offset ≡ share [ZMOD modulus] := by
        calc (reduced : Int) * offset ≡ reduced * (share * oldS) [ZMOD modulus] := hk.mul_left _
          _ = share * (oldS * reduced) := by ring
          _ ≡ share * 1 [ZMOD modulus] := hi.mul_left _
          _ = share := mul_one share
      push_cast
      rw [mul_assoc]
      exact (hx.mul_left' ).add_left _

theorem firstInRange_least (low first : Nat) {period : Nat} (hp : 0 < period)
    (hf : low + period < 2 ^ 128) : ∃ index, firstInRange low first period = some index ∧
      IsLeast {index | low ≤ index ∧ index ≡ first [MOD period]} index := by
  have hc : ∀ index, index ≡ first [MOD period] →
      index = first % period + period * (index / period) := by
    intro index he
    rw [← he]
    exact (mod_add_div index period).symm
  rw [firstInRange, guard_of hp.ne']
  simp only [bind_eq_bind, bind_some]
  split
  · rename_i hb
    obtain ⟨turns, ht⟩ : ∃ turns, (low - first % period) ⌈/⌉ period = turns := ⟨_, rfl⟩
    have hu : turns * period < low - first % period + period := by
      rw [← ht, ceilDiv_eq_add_pred_div]
      have := div_mul_le_self (low - first % period + period - 1) period
      omega
    have hl : low - first % period ≤ turns * period := by
      rw [← ht, mul_comm]
      exact le_smul_ceilDiv hp
    rw [ht, wide_of_lt (by omega), bind_some, wide_of_lt (by omega)]
    refine ⟨_, rfl, ⟨by omega, ?_⟩, ?_⟩
    · exact (add_mul_mod_self_right ..).trans (mod_mod ..)
    · rintro index ⟨hi, he⟩
      have hm : turns ≤ index / period := by
        rw [← ht, ceilDiv_le_iff_le_mul hp]
        have := hc index he
        omega
      rw [hc index he, mul_comm period]
      exact Nat.add_le_add_left (Nat.mul_le_mul_right _ hm) _
  · rename_i hb
    refine ⟨_, rfl, ⟨not_lt.mp hb, mod_modEq _ _⟩, ?_⟩
    rintro index ⟨-, he⟩
    rw [hc index he]
    exact le_add_right _ _

def last (start step count : Nat) : Option Nat := do
  checkedAdd start (← checkedMul (count - 1) step)

def progressionsOverlap (a stepA countA b stepB countB : Nat) : Option Bool := do
  if countA = 0 ∨ countB = 0 then return false
  let low := max a b
  let high := min (← last a stepA countA) (← last b stepB countB)
  if high < low then return false
  let gcd := euclid stepA stepB
  guard (gcd ≠ 0)
  let difference : Int := b - a
  guard (Signed difference)
  if difference.tmod gcd ≠ 0 then return false
  let modulus := stepB / gcd
  let first ← commonIndex a stepA gcd modulus difference
  let period ← wide (stepA * modulus)
  return (← firstInRange low first period) ≤ high

/-- One axis of a resolved slice: its indices and their spacing are words. -/
structure CaptureAxis where
  start : Nat
  stride : Nat
  count : Nat
  positive : 0 < stride
  spaced : stride ≤ maximum
  reached : start + (count - 1) * stride ≤ maximum

namespace CaptureAxis

def Selects (axis : CaptureAxis) (index : Nat) : Prop :=
  ∃ step < axis.count, index = axis.start + step * axis.stride

variable {axis : CaptureAxis} {index : Nat}

theorem selects_iff : axis.Selects index ↔ axis.count ≠ 0 ∧ axis.start ≤ index ∧
    index ≤ axis.start + (axis.count - 1) * axis.stride ∧ index ≡ axis.start [ZMOD axis.stride] := by
  constructor
  · rintro ⟨step, hs, rfl⟩
    have hl : step * axis.stride ≤ (axis.count - 1) * axis.stride :=
      mul_le_mul_right _ (by omega)
    refine ⟨by omega, by omega, by omega, Int.modEq_iff_dvd.mpr ⟨-step, ?_⟩⟩
    push_cast
    ring
  · rintro ⟨hc, hs, hl, he⟩
    obtain ⟨step, hd⟩ := (modEq_iff_dvd' hs).mp (Int.natCast_modEq_iff.mp he).symm
    rw [mul_comm] at hd
    have hb : step ≤ axis.count - 1 := le_of_mul_le_mul_right (by omega) axis.positive
    exact ⟨step, by omega, by omega⟩

theorem last_eq (axis : CaptureAxis) : last axis.start axis.stride axis.count =
    some (axis.start + (axis.count - 1) * axis.stride) := by
  have hr := axis.reached
  rw [last, checkedMul, if_pos (by omega)]
  exact if_pos hr

variable (left right : CaptureAxis)

def overlaps : Option Bool :=
  progressionsOverlap left.start left.stride left.count right.start right.stride right.count

/-- The two congruences have a common solution as soon as the starts agree up to the
divisor of the strides, and then they are one congruence. -/
theorem exists_first
    (hd : ((left.stride.gcd right.stride : Nat) : Int) ∣ right.start - left.start) :
    ∃ first, commonIndex left.start left.stride (left.stride.gcd right.stride)
        (right.stride / left.stride.gcd right.stride) (right.start - left.start) = some first ∧
      ∀ index : Nat,
        index ≡ left.start [ZMOD left.stride] ∧ index ≡ right.start [ZMOD right.stride] ↔
          index ≡ first [MOD left.stride * (right.stride / left.stride.gcd right.stride)] := by
  have hg := Nat.gcd_pos_of_pos_left right.stride left.positive
  have hc := Nat.coprime_div_gcd_div_gcd hg
  have hl := Nat.mul_div_cancel' (Nat.gcd_dvd_left left.stride right.stride)
  have hr := Nat.mul_div_cancel' (Nat.gcd_dvd_right left.stride right.stride)
  have hp : left.stride * (right.stride / left.stride.gcd right.stride) =
      left.stride.lcm right.stride :=
    (Nat.mul_div_assoc _ (Nat.gcd_dvd_right ..)).symm
  rw [hp]
  generalize left.stride.gcd right.stride = gcd at *
  generalize left.stride / gcd = reduced, right.stride / gcd = modulus at *
  obtain ⟨share, hd⟩ := hd
  obtain ⟨first, hf, hfl, hfr⟩ := commonIndex_solves share
    ((Nat.le_add_right ..).trans left.reached) (hl ▸ left.spaced) (hr ▸ right.spaced) hg
    (Nat.pos_of_mul_pos_left (hl ▸ left.positive)) (Nat.pos_of_mul_pos_left (hr ▸ right.positive))
    hc
  rw [← hd, add_sub_cancel, ← Nat.cast_mul, hr] at hfr
  rw [← Nat.cast_mul, hl] at hfl
  refine ⟨first, by rw [hd, ← hf, hl], fun index => ?_⟩
  rw [← Int.natCast_modEq_iff, ← Int.lcm_natCast_natCast, ← Int.modEq_and_modEq_iff_modEq_lcm]
  exact and_congr ⟨fun he => he.trans hfl.symm, fun he => he.trans hfl⟩
    ⟨fun he => he.trans hfr.symm, fun he => he.trans hfr⟩

theorem overlaps_decides :
    ∃ overlap, left.overlaps right = some overlap ∧
      (overlap = true ↔ ∃ index, left.Selects index ∧ right.Selects index) := by
  have hlr := left.reached
  have hrr := right.reached
  have hg := gcd_pos_of_pos_left right.stride left.positive
  simp only [overlaps, progressionsOverlap, last_eq, euclid_eq_gcd, selects_iff,
    bind_eq_bind, bind_some]
  split
  · exact ⟨false, rfl, by grind⟩
  split
  · exact ⟨false, rfl, by grind⟩
  rename_i hc hh
  rw [guard_of hg.ne', guard_of (by unfold Signed maximum at *; omega)]
  simp only [bind_some]
  split
  · rename_i ht
    refine ⟨false, rfl, iff_of_false nofun ?_⟩
    rintro ⟨index, ⟨-, -, -, hl⟩, -, -, -, hr⟩
    refine ht (Int.tmod_eq_zero_of_dvd (Int.ModEq.dvd ?_))
    exact (hl.symm.of_dvd (Int.natCast_dvd_natCast.mpr (Nat.gcd_dvd_left ..))).trans
      (hr.of_dvd (Int.natCast_dvd_natCast.mpr (Nat.gcd_dvd_right ..)))
  · rename_i ht
    obtain ⟨first, hf, hs⟩ := exists_first left right (Int.dvd_of_tmod_eq_zero (not_not.mp ht))
    rw [hf, bind_some]
    generalize hm : right.stride / left.stride.gcd right.stride = modulus at *
    have hmo : modulus ≤ maximum := hm ▸ (Nat.div_le_self ..).trans right.spaced
    have hpo : 0 < modulus := hm ▸ div_pos (gcd_le_right _ right.positive) hg
    have hpe := mul_le_mul left.spaced hmo
    obtain ⟨index, hi, hle⟩ := firstInRange_least (max left.start right.start) first
      (mul_pos left.positive hpo) (by unfold maximum at *; omega)
    rw [wide_of_lt (by unfold maximum at *; omega), bind_some, hi, bind_some]
    refine ⟨_, rfl, ?_⟩
    rw [decide_eq_true_iff]
    constructor
    · intro hb
      obtain ⟨hl, hr⟩ := (hs index).mpr hle.1.2
      obtain ⟨hla, hra⟩ := max_le_iff.mp hle.1.1
      obtain ⟨hlb, hrb⟩ := le_min_iff.mp hb
      obtain ⟨hln, hrn⟩ := not_or.mp hc
      exact ⟨index, ⟨hln, hla, hlb, hl⟩, hrn, hra, hrb, hr⟩
    · rintro ⟨other, ⟨-, hla, hlb, hlc⟩, -, hra, hrb, hrc⟩
      exact (hle.2 ⟨max_le hla hra, (hs other).mp ⟨hlc, hrc⟩⟩).trans (le_min hlb hrb)

end CaptureAxis

inductive CaptureError where
  | invalid (message : String)
  deriving DecidableEq, Repr

/-- The selected result cells of a fragment, axis by axis. -/
structure CaptureFragmentGeometry where
  destination : List CaptureAxis

namespace CaptureFragmentGeometry

def overlapsDestination (self other : CaptureFragmentGeometry) :
    Except CaptureError (Option Bool) :=
  if self.destination.length ≠ other.destination.length then
    .error (.invalid "capture fragments have different destination ranks")
  else
    .ok ((self.destination.zip other.destination).allM fun axes => axes.1.overlaps axes.2)

def Covers (fragment : CaptureFragmentGeometry) (cell : List Nat) : Prop :=
  List.Forall₂ CaptureAxis.Selects fragment.destination cell

theorem allM_overlaps {left right : List CaptureAxis} (hl : left.length = right.length) :
    ∃ overlap, (left.zip right).allM (fun axes => axes.1.overlaps axes.2) = some overlap ∧
      (overlap = true ↔ ∃ cell, List.Forall₂ CaptureAxis.Selects left cell ∧
        List.Forall₂ CaptureAxis.Selects right cell) := by
  induction left generalizing right with
  | nil =>
    obtain rfl := List.length_eq_zero_iff.mp hl.symm
    exact ⟨true, rfl, by simp⟩
  | cons first left ih =>
    obtain _ | ⟨second, right⟩ := right
    · cases hl
    obtain ⟨overlap, ho, hs⟩ := first.overlaps_decides second
    obtain ⟨rest, hr, hc⟩ := ih (succ.inj hl)
    refine ⟨overlap && rest, by cases overlap <;> simp [ho, hr], ?_⟩
    rw [Bool.and_eq_true, hs, hc]
    constructor
    · rintro ⟨⟨index, hf, hs⟩, cell, hl, hr⟩
      exact ⟨index :: cell, .cons hf hl, .cons hs hr⟩
    · rintro ⟨cell, ⟨⟩ | ⟨hf, hl⟩, ⟨⟩ | ⟨hs, hr⟩⟩
      exact ⟨⟨_, hf, hs⟩, _, hl, hr⟩

end CaptureFragmentGeometry

theorem strided_overlap_exact : (∀ left right : CaptureAxis, ∃ overlap,
      progressionsOverlap left.start left.stride left.count right.start right.stride right.count =
        some overlap ∧ (overlap = true ↔ ∃ index, left.Selects index ∧ right.Selects index)) ∧
    ∀ left right : CaptureFragmentGeometry, left.destination.length = right.destination.length →
      ∃ overlap, left.overlapsDestination right = .ok (some overlap) ∧
        (overlap = true ↔ ∃ cell, left.Covers cell ∧ right.Covers cell) := by
  refine ⟨CaptureAxis.overlaps_decides, fun left right hl => ?_⟩
  obtain ⟨overlap, ho, hs⟩ := CaptureFragmentGeometry.allM_overlaps hl
  exact ⟨overlap, (if_neg (not_not.mpr hl)).trans (congrArg Except.ok ho), hs⟩

end Eredu.Capture
