import Eredu.Foundation.Checked
import Mathlib.Data.PNat.Basic

/-!
# The size of state components

A component of the cached state has a symbolic shape and a rule for when it is
present. Its largest size over an interval of prompt lengths is bounded from the
ends of the interval, though axes that are remainders do not grow with the length.
-/

namespace Eredu.PromptCache

open Nat

open Effect

inductive CachePolicyError where
  | invalid (message : String)
  deriving Repr, DecidableEq

inductive StateTensorDimension where
  | batch
  | prefixTokens
  | prefixTokensDiv (divisor : ℕ+)
  | prefixTokensRem (divisor : ℕ+)
  | fixed (size : ℕ+)
  | scalar
  deriving DecidableEq

inductive StateTensorPresence where
  | required
  | optional
  | prefixRemainderNonZero (divisor : ℕ+)
  | prefixAtLeast (count : ℕ+)
  deriving DecidableEq

structure StateComponentPolicy where
  shape : List StateTensorDimension
  presence : StateTensorPresence

structure StateElementBounds where
  minimum : Nat
  maximum : Nat
  deriving Repr, DecidableEq

def value (batch tokens : Nat) : StateTensorDimension → Nat
  | .batch => batch
  | .prefixTokens => tokens
  | .prefixTokensDiv divisor => tokens / divisor
  | .prefixTokensRem divisor => tokens % divisor
  | .fixed size => size
  | .scalar => 1

def largest (batch first last : Nat) : StateTensorDimension → Nat
  | .prefixTokensRem divisor =>
    if first / divisor = last / divisor then last % divisor else divisor - 1
  | axis => value batch last axis

/-- Where an interval begins once the lengths without the component are cut off. -/
def StateTensorPresence.clip (first : Nat) : StateTensorPresence → Nat
  | prefixAtLeast count => max first count
  | _ => first

def StateTensorPresence.present (tokens : Nat) : StateTensorPresence → Bool
  | prefixRemainderNonZero divisor => tokens % divisor ≠ 0
  | _ => true

namespace StateComponentPolicy

variable (policy : StateComponentPolicy) (batch tokens : Nat)

def elements : Except CachePolicyError Nat :=
  if policy.presence.present tokens then
    checkedProduct (.invalid "state element count overflowed") (policy.shape.map (value batch tokens))
  else
    .ok 0

/-- The larger payload of the two ends; an optional component may be absent. -/
def peakMinimum (batch first last : Nat) : Except CachePolicyError Nat :=
  if policy.presence = .optional then
    .ok 0
  else do
    let atFirst ← policy.elements batch first
    let atLast ← policy.elements batch last
    return max atFirst atLast

def elementPeakBounds (batch first last : Nat) : Except CachePolicyError StateElementBounds :=
  if batch = 0 ∨ last < first then
    .error (.invalid "state geometry requires positive batch and ordered prefixes")
  else
    let first := policy.presence.clip first
    if last < first then
      .ok ⟨0, 0⟩
    else if first = last ∧ policy.presence.present first = false then
      .ok ⟨0, 0⟩
    else if policy.presence = .prefixRemainderNonZero 1 then
      .ok ⟨0, 0⟩
    else do
      let minimum ← policy.peakMinimum batch first last
      let maximum ← checkedProduct (.invalid "state horizon element count overflowed")
        (policy.shape.map (largest batch first last))
      return ⟨minimum, maximum⟩

end StateComponentPolicy

/-- The lengths at which a component may be there. -/
def StateTensorPresence.allows (tokens : Nat) : StateTensorPresence → Bool
  | required | optional => true
  | prefixRemainderNonZero divisor => tokens % divisor ≠ 0
  | prefixAtLeast count => count ≤ tokens

namespace StateComponentPolicy

def exactCount (policy : StateComponentPolicy) (batch tokens : Nat) : Nat :=
  if policy.presence.allows tokens then (policy.shape.map (value batch tokens)).prod else 0

/-- What a length demands: an optional component need not be there. -/
def requiredCount (policy : StateComponentPolicy) (batch tokens : Nat) : Nat :=
  if policy.presence = .optional then 0 else policy.exactCount batch tokens

/-- No length of an interval has more elements than the upper end, and one demands the lower end. -/
structure Brackets (policy : StateComponentPolicy) (batch first last : Nat)
    (bounds : StateElementBounds) : Prop where
  above : ∀ tokens, first ≤ tokens → tokens ≤ last → policy.exactCount batch tokens ≤ bounds.maximum
  attained : ∃ tokens, first ≤ tokens ∧ tokens ≤ last ∧
    bounds.minimum ≤ policy.requiredCount batch tokens
  ordered : bounds.minimum ≤ bounds.maximum

end StateComponentPolicy

section Bounds

variable {policy : StateComponentPolicy} {batch first last tokens : Nat}

theorem value_le_largest (hf : first ≤ tokens) (hl : tokens ≤ last) (axis : StateTensorDimension) :
    value batch tokens axis ≤ largest batch first last axis := by
  cases axis with
  | prefixTokens => exact hl
  | prefixTokensDiv divisor => exact Nat.div_le_div_right hl
  | prefixTokensRem divisor =>
    simp only [value, largest]
    split
    · next hs =>
      -- All lengths of the interval have one quotient, so the remainder grows with them.
      have hq : tokens / divisor = last / divisor :=
        le_antisymm (Nat.div_le_div_right hl) (hs ▸ Nat.div_le_div_right hf)
      have ht := div_add_mod tokens divisor
      have he := div_add_mod last divisor
      rw [hq] at ht
      omega
    · exact le_sub_one_of_lt (mod_lt _ divisor.pos)
  | _ => exact le_refl _

theorem clip_le (hf : first ≤ tokens) (ha : policy.presence.allows tokens = true) :
    policy.presence.clip first ≤ tokens := by
  unfold StateTensorPresence.clip
  split
  · next hp =>
    rw [hp] at ha
    exact max_le hf (of_decide_eq_true ha)
  · exact hf

theorem exactCount_le (hf : first ≤ tokens) (hl : tokens ≤ last) : policy.exactCount batch tokens ≤
    (policy.shape.map (largest batch (policy.presence.clip first) last)).prod := by
  unfold StateComponentPolicy.exactCount
  split
  · next ha => exact List.prod_le_prod' fun axis _ => value_le_largest (clip_le hf ha) hl axis
  · exact zero_le _

/-- Past the clip only the remainder decides. -/
theorem allows_eq_present (hc : policy.presence.clip first ≤ tokens) :
    policy.presence.allows tokens = policy.presence.present tokens := by
  cases hp : policy.presence with
  | prefixAtLeast count =>
    rw [hp] at hc
    exact decide_eq_true (le_trans (le_max_right _ _) hc)
  | _ => rfl

theorem concludes_elements (hc : policy.presence.clip first ≤ tokens) :
    Concludes (policy.elements batch tokens) (fun count => count = policy.exactCount batch tokens)
      fun _ => True := by
  unfold StateComponentPolicy.elements StateComponentPolicy.exactCount
  rw [allows_eq_present hc]
  split
  · exact (concludes_checkedProduct _).mono fun _ hs => hs.1
  · exact rfl

theorem brackets_absent (ho : first ≤ last)
    (ha : ∀ tokens, first ≤ tokens → tokens ≤ last → policy.presence.allows tokens ≠ true) :
    policy.Brackets batch first last ⟨0, 0⟩ where
  above tokens hf hl := (if_neg (ha tokens hf hl)).le
  attained := ⟨first, le_refl _, ho, zero_le _⟩
  ordered := le_refl _

theorem concludes_peakMinimum (ho : first ≤ last) (hc : policy.presence.clip first ≤ last) :
    Concludes (policy.peakMinimum batch (policy.presence.clip first) last) (fun minimum =>
      ∃ tokens, first ≤ tokens ∧ tokens ≤ last ∧ minimum ≤ policy.requiredCount batch tokens)
      fun _ => True := by
  unfold StateComponentPolicy.peakMinimum StateComponentPolicy.requiredCount
  split
  · exact ⟨first, le_refl _, ho, zero_le _⟩
  apply (concludes_elements le_rfl).bind
  rintro atFirst rfl
  apply (concludes_elements hc).bind
  rintro atLast rfl
  rcases le_total (policy.exactCount batch (policy.presence.clip first))
    (policy.exactCount batch last) with hs | hs
  · exact ⟨last, ho, le_refl _, max_le hs le_rfl⟩
  · refine ⟨_, ?_, hc, max_le le_rfl hs⟩
    cases policy.presence <;> simp [StateTensorPresence.clip]

end Bounds

theorem peak_bounds_bracket (policy : StateComponentPolicy) (batch first last : Nat)
    (bounds : StateElementBounds) (hb : policy.elementPeakBounds batch first last = .ok bounds) :
    policy.Brackets batch first last bounds := by
  unfold StateComponentPolicy.elementPeakBounds at hb
  split at hb
  · cases hb
  rename_i hn
  have ho : first ≤ last := not_lt.mp (not_or.mp hn).2
  dsimp only at hb
  split at hb
  · next hc =>
    cases hb
    refine brackets_absent ho fun tokens hf hl ha => ?_
    exact absurd ((clip_le hf ha).trans hl) (not_le.mpr hc)
  rename_i hc
  have he := not_lt.mp hc
  split at hb
  · next hs =>
    cases hb
    refine brackets_absent ho fun tokens hf hl ha => ?_
    have ht := clip_le hf ha
    rw [allows_eq_present ht, ← le_antisymm ht (hs.1 ▸ hl), hs.2] at ha
    cases ha
  split at hb
  · next hs =>
    cases hb
    refine brackets_absent ho fun tokens _ _ ha => ?_
    rw [hs] at ha
    exact of_decide_eq_true ha (mod_one tokens)
  obtain ⟨minimum, hm, hb⟩ := bind_eq_ok.mp hb
  obtain ⟨maximum, hx, hb⟩ := bind_eq_ok.mp hb
  cases hb
  obtain ⟨rfl, -⟩ := (concludes_checkedProduct _).of_ok hx
  obtain ⟨tokens, hf, hl, ha⟩ := (concludes_peakMinimum ho he).of_ok hm
  refine ⟨fun _ => exactCount_le, ⟨tokens, hf, hl, ha⟩, ha.trans ?_⟩
  unfold StateComponentPolicy.requiredCount
  split
  · exact zero_le _
  · exact exactCount_le hf hl

/-- A quotient and a remainder, whose product is not largest at the ends. -/
theorem peak_bounds_nonlinear :
    let policy : StateComponentPolicy :=
      ⟨[.batch, .prefixTokensDiv 4, .prefixTokensRem 4], .required⟩
    policy.elementPeakBounds 2 3 8 = .ok ⟨0, 12⟩ ∧ policy.exactCount 2 7 ≤ 12 := by
  intro policy
  have hb : policy.elementPeakBounds 2 3 8 = .ok ⟨0, 12⟩ := by decide
  exact ⟨hb, (peak_bounds_bracket policy 2 3 8 ⟨0, 12⟩ hb).above 7 (by decide) (by decide)⟩

end Eredu.PromptCache
