import Eredu.Foundation.Residual
import Eredu.Speculation.Sampling

/-!
# Stochastic verification keeps the target distribution

The sampler is read in exact arithmetic: a distribution is a rational mass
function on a finite vocabulary, the unit draw is uniform on `[0, 1)` and a token
drawn after it follows its distribution independently. Under these readings the
token that the accept-or-replace policy commits has the target's mass.
-/

namespace Eredu.Speculation

open MeasureTheory Set

variable {Sampler Distribution RandomState Error : Type}

/-- A sampler in exact arithmetic at one temperature. `mass` reads a distribution, `unit` and
`rest` are the unit draw and the randomness it leaves, `choose` is the token drawn. -/
structure ExactSampling
    (sampling : SpeculativeSampling Sampler Distribution RandomState ℝ Error)
    (sampler : Sampler) (temperature : Temperature) (vocabulary : Finset TokenId)
    [MeasurableSpace RandomState] (randomness : Measure RandomState) where
  mass : Distribution → TokenId → ℚ
  unit : RandomState → ℝ
  rest : RandomState → RandomState
  choose : Distribution → RandomState → TokenId
  probabilityAt_eq : ∀ distribution token,
    sampling.probabilityAt sampler distribution token .target = .ok (mass distribution token : ℝ)
  unitInterval_eq : ∀ state,
    sampling.sampleUnitInterval sampler (some state) = (.ok (unit state), some (rest state))
  sample_eq : ∀ distribution state, ∃ left,
    sampling.sample sampler distribution temperature .target (some state) =
      (.ok (choose distribution state), left)
  measurable_unit : Measurable unit
  /-- The unit draw is uniform on `[0, 1)`. -/
  uniform : ∀ range : Set ℝ, MeasurableSet range →
    randomness {state | unit state ∈ range} = volume (range ∩ Ico 0 1)
  /-- A token drawn after the unit draw follows its distribution, independently of that draw. -/
  independent : ∀ distribution, IsMass vocabulary (mass distribution) →
    ∀ range : Set ℝ, MeasurableSet range → ∀ token,
      randomness {state | unit state ∈ range ∧ choose distribution (rest state) = token} =
        volume (range ∩ Ico 0 1) * ENNReal.ofReal (mass distribution token)
  /-- The positive probability difference is the normalized positive part, absent without mass. -/
  residual : ∀ left right,
    (excessMass vocabulary (mass left) (mass right) = 0 →
      sampling.positiveProbabilityDifference sampler left right .target = .ok none) ∧
    (excessMass vocabulary (mass left) (mass right) ≠ 0 → ∃ difference,
      sampling.positiveProbabilityDifference sampler left right .target = .ok (some difference) ∧
      ∀ token, mass difference token =
        excess (mass left) (mass right) token / excessMass vocabulary (mass left) (mass right))

variable (sampling : SpeculativeSampling Sampler Distribution RandomState ℝ Error)
  (sampler : Sampler) (temperature : Temperature)

/-- The policy commits `token` for the proposal `proposed` under causal evidence. -/
def Commits (target draft : Distribution) (proposed token : TokenId) (state : RandomState) : Prop :=
  ∃ decision left,
    (decideSpeculativeProposal sampling sampler target (.causalDistribution draft) proposed
      temperature).outcome (some state) = (.ok decision, left) ∧
    decision.committed proposed = token

/-- The probability that `token` is committed when the proposal is drawn from the draft. -/
noncomputable def committedMass
    (vocabulary : Finset TokenId)
    [MeasurableSpace RandomState] (randomness : Measure RandomState)
    (mass : Distribution → TokenId → ℚ) (target draft : Distribution) (token : TokenId) :
    ENNReal :=
  ∑ proposed ∈ vocabulary, ENNReal.ofReal (mass draft proposed) *
    randomness {state | Commits sampling sampler temperature target draft proposed token state}

section Exact

variable {sampling :
    SpeculativeSampling Sampler Distribution RandomState ℝ Error}
  {sampler : Sampler} {temperature : Temperature} {vocabulary : Finset TokenId}
  [MeasurableSpace RandomState] {randomness : Measure RandomState}
  (draws : ExactSampling sampling sampler temperature vocabulary randomness)
  {target draft : Distribution}

/-- The distribution that a rejected proposal is replaced from: the residual, or the target when
there is nothing to reject. -/
theorem ExactSampling.exists_replacement (hp : IsMass vocabulary (draws.mass target))
    (hq : IsMass vocabulary (draws.mass draft)) :
    ∃ difference, sampling.positiveProbabilityDifference sampler target draft .target =
        .ok difference ∧ IsMass vocabulary (draws.mass (difference.getD target)) ∧
      (excessMass vocabulary (draws.mass target) (draws.mass draft) ≠ 0 → ∀ token,
        draws.mass (difference.getD target) token =
          excess (draws.mass target) (draws.mass draft) token /
            excessMass vocabulary (draws.mass target) (draws.mass draft)) := by
  by_cases he : excessMass vocabulary (draws.mass target) (draws.mass draft) = 0
  · exact ⟨none, (draws.residual target draft).1 he, hp, fun hre => absurd he hre⟩
  · obtain ⟨difference, hr, hn⟩ := (draws.residual target draft).2 he
    exact ⟨some difference, hr, hp.residual hq he hn, fun _ => hn⟩

variable {difference : Option Distribution}

theorem ExactSampling.weigh_outcome
    (hr : sampling.positiveProbabilityDifference sampler target draft .target =
      .ok difference) (proposed : TokenId) (state : RandomState) :
    ∃ left, (weighLikelihoods sampling sampler target draft proposed temperature).outcome
        (some state) =
      (.ok (if draws.unit state ≤ keep (draws.mass target proposed) (draws.mass draft proposed)
        then .accept
        else .reject (draws.choose (difference.getD target) (draws.rest state))), left) := by
  have ha : speculativeAcceptanceProbability (draws.mass target proposed : ℝ)
      (draws.mass draft proposed : ℝ) =
      ((keep (draws.mass target proposed) (draws.mass draft proposed) : ℚ) : ℝ) :=
    (cast_keep _ _).symm
  obtain ⟨left, hd⟩ := draws.sample_eq (difference.getD target) (draws.rest state)
  simp only [weighLikelihoods, Effect.outcome_bind, draws.probabilityAt_eq,
    Effect.outcome_ofResult_ok, Effect.outcome_call, id, draws.unitInterval_eq, Except.mapError,
    ha]
  split
  · exact ⟨_, rfl⟩
  refine ⟨left, ?_⟩
  simp only [Effect.outcome_bind, hr, Effect.outcome_ofResult_ok, drawToken,
    Effect.outcome_call, id, hd, Except.mapError, Effect.outcome_pure]

/-- The proposal survives a unit draw up to its acceptance probability and is replaced by the token
drawn next otherwise. -/
theorem ExactSampling.commits_iff (hs : temperature.isZero = false)
    (hre : sampling.positiveProbabilityDifference sampler target draft .target =
      .ok difference) (proposed token : TokenId) (state : RandomState) :
    Commits sampling sampler temperature target draft proposed token state ↔
      (draws.unit state ≤ keep (draws.mass target proposed) (draws.mass draft proposed) ∧
        proposed = token) ∨
      (keep (draws.mass target proposed) (draws.mass draft proposed) < draws.unit state ∧
        draws.choose (difference.getD target) (draws.rest state) = token) := by
  obtain ⟨left, run⟩ := draws.weigh_outcome hre proposed state
  have hd : (decideSpeculativeProposal sampling sampler target (.causalDistribution draft)
      proposed temperature) = weighLikelihoods sampling sampler target draft proposed temperature :=
    if_neg (by simp [hs])
  unfold Commits
  rw [hd, run]
  constructor
  · rintro ⟨decision, _, hsa, hc⟩
    cases hsa
    split at hc
    · next hk => exact .inl ⟨hk, hc⟩
    · next hr => exact .inr ⟨not_le.mp hr, hc⟩
  · rintro (⟨hk, hsa⟩ | ⟨hr, hdr⟩)
    · exact ⟨_, _, rfl, by rw [if_pos hk]; exact hsa⟩
    · exact ⟨_, _, rfl, by rw [if_neg (not_le.mpr hr)]; exact hdr⟩

/-- The probability that a given proposal leads to `token`. -/
theorem ExactSampling.measure_commits (hs : temperature.isZero = false)
    (hp : IsMass vocabulary (draws.mass target))
    (hre : sampling.positiveProbabilityDifference sampler target draft .target =
      .ok difference) (hr : IsMass vocabulary (draws.mass (difference.getD target)))
    (proposed token : TokenId) :
    randomness {state | Commits sampling sampler temperature target draft proposed token state} =
      ENNReal.ofReal (((if proposed = token then
          keep (draws.mass target proposed) (draws.mass draft proposed) else 0) +
        (1 - keep (draws.mass target proposed) (draws.mass draft proposed)) *
          draws.mass (difference.getD target) token : ℚ)) := by
  set accepted := keep (draws.mass target proposed) (draws.mass draft proposed) with ha
  have hn : (0 : ℝ) ≤ (accepted : ℝ) := by exact_mod_cast keep_nonneg (hp.nonneg proposed)
  have hl : (accepted : ℝ) ≤ 1 := by exact_mod_cast keep_le_one _ _
  have hsp : {state | Commits sampling sampler temperature target draft proposed token state} =
      {state | draws.unit state ∈ Iic (accepted : ℝ) ∧ proposed = token} ∪
        {state | draws.unit state ∈ Ioi (accepted : ℝ) ∧
          draws.choose (difference.getD target) (draws.rest state) = token} := by
    ext state
    exact draws.commits_iff hs hre proposed token state
  have hk : randomness {state | draws.unit state ∈ Iic (accepted : ℝ) ∧ proposed = token} =
      ENNReal.ofReal (if proposed = token then (accepted : ℝ) else 0) := by
    split
    · next hsa =>
      simp only [hsa, and_true]
      rw [draws.uniform _ measurableSet_Iic, volume_le_inter_unit hn hl]
    · next hdi => simp [hdi]
  have hdr := draws.independent _ hr (Ioi (accepted : ℝ)) measurableSet_Ioi token
  rw [volume_gt_inter_unit hn] at hdr
  have hm : MeasurableSet {state | draws.unit state ∈ Iic (accepted : ℝ) ∧ proposed = token} :=
    (draws.measurable_unit measurableSet_Iic).inter (MeasurableSet.const _)
  have hd : Disjoint {state | draws.unit state ∈ Iic (accepted : ℝ) ∧ proposed = token}
      {state | draws.unit state ∈ Ioi (accepted : ℝ) ∧
        draws.choose (difference.getD target) (draws.rest state) = token} :=
    disjoint_left.mpr fun _ hb hab => not_le.mpr (mem_Ioi.mp hab.1) (mem_Iic.mp hb.1)
  rw [hsp, measure_union' hd hm, hk, hdr,
    ← ENNReal.ofReal_mul (sub_nonneg.mpr hl), ← ENNReal.ofReal_add]
  · by_cases hsa : proposed = token <;> simp [hsa]
  · split
    · exact hn
    · exact le_rfl
  · exact mul_nonneg (sub_nonneg.mpr hl) (by exact_mod_cast hr.nonneg token)

end Exact

/-- A token committed by the likelihood-ratio policy for a proposal drawn from the draft has the
target's distribution. -/
theorem committedMass_eq_target
    (sampling : SpeculativeSampling Sampler Distribution RandomState ℝ Error)
    (sampler : Sampler) (temperature : Temperature) (stochastic : temperature.isZero = false)
    (vocabulary : Finset TokenId) [MeasurableSpace RandomState] (randomness : Measure RandomState)
    (draws : ExactSampling sampling sampler temperature vocabulary randomness)
    (target draft : Distribution) (hp : IsMass vocabulary (draws.mass target))
    (hq : IsMass vocabulary (draws.mass draft)) (token : TokenId) :
    committedMass sampling sampler temperature vocabulary randomness draws.mass target draft token =
      ENNReal.ofReal (draws.mass target token) := by
  obtain ⟨difference, hre, hr, hn⟩ := draws.exists_replacement hp hq
  have hc : ∀ proposed ∈ vocabulary,
      ENNReal.ofReal (draws.mass draft proposed) * randomness
        {state | Commits sampling sampler temperature target draft proposed token state} =
      ENNReal.ofReal ((draws.mass draft proposed *
        ((if proposed = token then
            keep (draws.mass target proposed) (draws.mass draft proposed) else 0) +
          (1 - keep (draws.mass target proposed) (draws.mass draft proposed)) *
            draws.mass (difference.getD target) token) : ℚ)) := by
    intro proposed _
    rw [draws.measure_commits stochastic hp hre hr,
      ← ENNReal.ofReal_mul (by exact_mod_cast hq.nonneg proposed), Rat.cast_mul]
  unfold committedMass
  rw [Finset.sum_congr rfl hc, ← ENNReal.ofReal_sum_of_nonneg, ← Rat.cast_sum,
    sum_contributions hp hq _ hn]
  intro proposed _
  have hk := keep_nonneg (q := draws.mass draft proposed) (hp.nonneg proposed)
  have hke := keep_le_one (draws.mass target proposed) (draws.mass draft proposed)
  have hs := mul_nonneg (sub_nonneg.mpr hke) (hr.nonneg token)
  have : 0 ≤ (if proposed = token then
      keep (draws.mass target proposed) (draws.mass draft proposed) else 0) := by
    split
    · exact hk
    · exact le_rfl
  exact_mod_cast mul_nonneg (hq.nonneg proposed) (add_nonneg this hs)

/-- A sampler for the tokens `0` and `1` whose randomness is a pair of unit draws. -/
noncomputable def pairSampling :
    SpeculativeSampling Unit (TokenId → ℚ) (ℝ × ℝ) ℝ Unit where
  sample _ distribution _ _ randomness :=
    match randomness with
    | none => (.error (), none)
    | some (first, second) =>
        (.ok (if first < (distribution 0 : ℝ) then 0 else 1), some (second, 0))
  probabilityAt _ distribution token _ := .ok (distribution token : ℝ)
  sampleUnitInterval _ randomness :=
    match randomness with
    | none => (.error (), none)
    | some (first, second) => (.ok first, some (second, 0))
  positiveProbabilityDifference _ left right _ :=
    .ok (if excessMass {0, 1} left right = 0 then none
      else some fun token => excess left right token / excessMass {0, 1} left right)

/-- Two independent uniform draws. -/
noncomputable def pairRandomness : Measure (ℝ × ℝ) :=
  (volume.restrict (Ico 0 1)).prod (volume.restrict (Ico 0 1))

/-- A unit draw compared with the mass of `0` selects a token by its mass. -/
theorem volume_select {mass : TokenId → ℚ} (hn : IsMass {0, 1} mass) (token : TokenId) :
    volume.restrict (Ico (0 : ℝ) 1)
        {draw | (if draw < (mass 0 : ℝ) then (0 : TokenId) else 1) = token} =
      ENNReal.ofReal (mass token) := by
  have ht : (mass 0 : ℝ) + mass 1 = 1 := by exact_mod_cast (by simpa using hn.total)
  have hno : (0 : ℝ) ≤ mass 0 := by exact_mod_cast hn.nonneg 0
  have hl : (0 : ℝ) ≤ mass 1 := by exact_mod_cast hn.nonneg 1
  rw [Measure.restrict_apply' measurableSet_Ico]
  obtain rfl | hz := eq_or_ne token 0
  · have : {draw | (if draw < (mass 0 : ℝ) then (0 : TokenId) else 1) = 0} = Iio (mass 0 : ℝ) := by
      ext draw
      simp
    rw [this, inter_comm, Ico_inter_Iio, Real.volume_Ico, min_eq_right (by linarith), sub_zero]
  obtain rfl | one := eq_or_ne token 1
  · have : {draw | (if draw < (mass 0 : ℝ) then (0 : TokenId) else 1) = 1} = Ici (mass 0 : ℝ) := by
      ext draw
      simp
    rw [this, inter_comm, Ico_inter_Ici, Real.volume_Ico, max_eq_right hno, ← ht, add_sub_cancel_left]
  · have : {draw | (if draw < (mass 0 : ℝ) then (0 : TokenId) else 1) = token} = ∅ := by
      ext draw
      simp only [mem_ofPred_eq, mem_empty_iff_false, iff_false]
      split
      · exact hz.symm
      · exact one.symm
    rw [this, hn.outside token (by simp [hz, one])]
    simp

noncomputable def pairDraws :
    ExactSampling pairSampling () (.finite 1) {0, 1} pairRandomness where
  mass distribution := distribution
  unit := Prod.fst
  rest state := (state.2, 0)
  choose distribution state := if state.1 < (distribution 0 : ℝ) then 0 else 1
  probabilityAt_eq _ _ := rfl
  unitInterval_eq _ := rfl
  sample_eq _ _ := ⟨_, rfl⟩
  measurable_unit := measurable_fst
  uniform range measurable := by
    have : {state : ℝ × ℝ | state.1 ∈ range} = range ×ˢ univ := by ext; simp
    rw [this, pairRandomness, Measure.prod_prod, Measure.restrict_apply measurable]
    simp
  independent distribution normalized range measurable token := by
    have : {state : ℝ × ℝ | state.1 ∈ range ∧
        (if state.2 < (distribution 0 : ℝ) then (0 : TokenId) else 1) = token} =
        range ×ˢ {draw | (if draw < (distribution 0 : ℝ) then (0 : TokenId) else 1) = token} := by
      ext
      simp
    rw [this, pairRandomness, Measure.prod_prod, Measure.restrict_apply measurable,
      volume_select normalized]
  residual left right := by
    refine ⟨fun empty => ?_, fun rejects => ⟨_, ?_, fun _ => rfl⟩⟩
    · simp [pairSampling, empty]
    · simp [pairSampling, rejects]

/-- The mass function that gives `0` the mass `weight` and `1` the rest. -/
def pairMass (weight : ℚ) (token : TokenId) : ℚ :=
  if token = 0 then weight else if token = 1 then 1 - weight else 0

theorem isMass_pairMass {weight : ℚ} (hn : 0 ≤ weight) (hl : weight ≤ 1) :
    IsMass {0, 1} (pairMass weight) where
  nonneg token := by
    unfold pairMass
    split
    · exact hn
    split
    · exact sub_nonneg.mpr hl
    · exact le_rfl
  outside token ho := by
    simp only [Finset.mem_insert, Finset.mem_singleton, not_or] at ho
    simp [pairMass, ho.1, ho.2]
  total := by simp [pairMass]

/-- With target masses 1/4 and 3/4 and a uniform draft, token 1 is committed with probability 3/4. -/
theorem committedMass_eq_target_pair :
    committedMass pairSampling () (.finite 1) {0, 1} pairRandomness pairDraws.mass
        (pairMass (1 / 4)) (pairMass (1 / 2)) 1 = ENNReal.ofReal ((3 / 4 : ℚ) : ℝ) := by
  have target : IsMass {0, 1} (pairMass (1 / 4)) := isMass_pairMass (by norm_num) (by norm_num)
  have draft : IsMass {0, 1} (pairMass (1 / 2)) := isMass_pairMass (by norm_num) (by norm_num)
  have hm : pairMass (1 / 4) 1 = 3 / 4 := by
    rw [pairMass, if_neg (by decide), if_pos rfl]
    norm_num
  rw [← hm]
  exact committedMass_eq_target pairSampling () (.finite 1) (by decide) {0, 1} pairRandomness
    pairDraws _ _ target draft 1

end Eredu.Speculation
