import Eredu.Speculation.Sampling
import Mathlib.Algebra.Order.Field.Rat

/-!
# The support of verified tokens

Masks and grammars reach the sampler as zero target probability. A verified token
lies in the support of the target except at one draw: the acceptance test compares
with `<=`, so the draw zero accepts a proposal that the target gives no mass.
-/

namespace Eredu.Speculation

variable {Sampler Distribution RandomState Probability Error : Type}
  [Field Probability] [LinearOrder Probability]
  (sampling : SpeculativeSampling Sampler Distribution RandomState Probability Error)
  (sampler : Sampler) (mass : Distribution → TokenId → Probability)

/-- What the policy assumes of the mechanisms it calls, with `mass` reading a distribution. -/
structure SupportedSampling
    : Prop where
  nonneg : ∀ distribution token, 0 ≤ mass distribution token
  probabilityAt : ∀ distribution token probability,
    sampling.probabilityAt sampler distribution token .target = .ok probability →
      probability = mass distribution token
  sample : ∀ distribution temperature randomness token,
    (sampling.sample sampler distribution temperature .target randomness).1 = .ok token →
      0 < mass distribution token
  /-- The unit draw is half-open. -/
  unitInterval : ∀ randomness draw,
    (sampling.sampleUnitInterval sampler randomness).1 = .ok draw → 0 ≤ draw ∧ draw < 1
  /-- The positive difference has mass only where the left side has more of it. -/
  difference : ∀ left right residual token,
    sampling.positiveProbabilityDifference sampler left right .target = .ok (some residual) →
      0 < mass residual token → mass right token < mass left token

/-- The stochastic policy weighs a proposal that the target gives no mass with the unit draw
zero. -/
structure StrikesZero
    (target : Distribution)
    (evidence : ProposalEvidence Distribution) (proposed : TokenId) (temperature : Temperature)
    (randomness : Option RandomState) : Prop where
  stochastic : temperature.isZero = false
  causal : ∃ draft, evidence = .causalDistribution draft
  forbidden : mass target proposed = 0
  draw : (sampling.sampleUnitInterval sampler randomness).1 = .ok 0

/-- A proposal the draft can draw passes a nonnegative draw exactly up to the likelihood ratio; at
zero target mass only the draw zero does. -/
theorem accepts_forbidden_iff [IsStrictOrderedRing Probability] {draftProbability draw : Probability}
    (hp : 0 < draftProbability) (hn : 0 ≤ draw) :
    draw ≤ speculativeAcceptanceProbability 0 draftProbability ↔ draw = 0 := by
  unfold speculativeAcceptanceProbability
  rw [if_neg (not_le.mpr hp), zero_div, min_eq_left zero_le_one]
  exact ⟨fun hb => le_antisymm hb hn, le_of_eq⟩

variable {target draft : Distribution}

section Supported

variable
  {sampling : SpeculativeSampling Sampler Distribution RandomState Probability Error}
  {sampler : Sampler} {mass : Distribution → TokenId → Probability}
  (supported : SupportedSampling sampling sampler mass)

include supported

theorem SupportedSampling.drawToken_returns (distribution : Distribution)
    (temperature : Temperature) :
    (drawToken sampling sampler distribution temperature .target).Returns
      fun token => 0 < mass distribution token := by
  intro randomness
  apply Effect.Yields.call
  · exact fun token hd => supported.sample distribution temperature randomness token hd
  · exact fun _ _ => trivial

theorem SupportedSampling.matchTarget_returns (target : Distribution) (proposed : TokenId)
    (temperature : Temperature) : (matchTarget sampling sampler target proposed temperature).Returns
      fun decision => 0 < mass target (decision.committed proposed) := by
  have hc : (chooseTarget sampling sampler target temperature).Returns
      fun token => 0 < mass target token := by
    unfold chooseTarget
    split
    · exact fun _ => Effect.Yields.ofResult
        (fun token hd => supported.sample target temperature none token hd) fun _ _ => trivial
    · exact supported.drawToken_returns target temperature
  refine hc.bind fun token hp => Effect.returns_pure ?_
  split
  · next hs => exact hs ▸ hp
  · exact hp

theorem SupportedSampling.replacement_positive {residual : Option Distribution}
    (hr : sampling.positiveProbabilityDifference sampler target draft .target = .ok residual)
    {token : TokenId} (hp : 0 < mass (residual.getD target) token) : 0 < mass target token := by
  cases residual with
  | none => exact hp
  | some difference =>
    have ha := supported.difference target draft difference token hr hp
    exact (supported.nonneg draft token).trans_lt ha

theorem SupportedSampling.weighLikelihoods_yields [IsStrictOrderedRing Probability]
    {proposed : TokenId} (hpo : 0 < mass draft proposed)
    (temperature : Temperature) (randomness : Option RandomState) :
    (weighLikelihoods sampling sampler target draft proposed temperature).Yields randomness
      (fun decision _ => 0 < mass target (decision.committed proposed) ↔
        ¬(mass target proposed = 0 ∧ (sampling.sampleUnitInterval sampler randomness).1 = .ok 0))
      fun _ _ => True := by
  refine Effect.Yields.bind (Effect.Yields.ofResult ?_ fun _ _ => trivial)
  intro targetProbability hre
  refine Effect.Yields.bind (Effect.Yields.ofResult ?_ fun _ _ => trivial)
  intro draftProbability hrt
  rw [supported.probabilityAt _ _ _ hre, supported.probabilityAt _ _ _ hrt]
  refine Effect.Yields.bind (Effect.Yields.call ?_ fun _ _ => trivial)
  intro draw hd
  have hd : (sampling.sampleUnitInterval sampler randomness).1 = .ok draw := hd
  have hn := (supported.unitInterval randomness draw hd).1
  rw [hd, Except.ok.injEq]
  split
  · next ha =>
    -- An accepted proposal is forbidden exactly at the draw zero.
    rw [Effect.yields_pure, ProposalDecision.committed]
    refine ⟨fun hp hf => hp.ne' hf.1, fun hal => ?_⟩
    refine lt_of_le_of_ne (supported.nonneg target proposed) fun hf => ?_
    rw [← hf, accepts_forbidden_iff hpo hn] at ha
    exact hal ⟨hf.symm, ha⟩
  · next hr =>
    have hh : ¬(mass target proposed = 0 ∧ draw = 0) := by
      rintro ⟨hf, hz⟩
      rw [hf, accepts_forbidden_iff hpo hn] at hr
      exact hr hz
    refine Effect.Yields.bind (Effect.Yields.ofResult ?_ fun _ _ => trivial)
    intro residual hrd
    refine (supported.drawToken_returns _ temperature _).andThen ?_
    intro token _ hp
    exact iff_of_true (supported.replacement_positive hrd hp) hh

end Supported

/-- A decision commits a token of the target's support exactly when the policy does not weigh a
forbidden proposal with the draw zero. -/
theorem decide_supported_iff [IsStrictOrderedRing Probability] (sampling :
      SpeculativeSampling Sampler Distribution RandomState Probability Error)
    (sampler : Sampler) (mass : Distribution → TokenId → Probability)
    (supported : SupportedSampling sampling sampler mass) (target : Distribution)
    (evidence : ProposalEvidence Distribution) (proposed : TokenId) (temperature : Temperature)
    (possible : ∀ draft, evidence = .causalDistribution draft → 0 < mass draft proposed)
    (randomness left : Option RandomState) (decision : ProposalDecision)
    (decided : (decideSpeculativeProposal sampling sampler target evidence proposed
      temperature).outcome randomness = (.ok decision, left)) :
    0 < mass target (decision.committed proposed) ↔
      ¬StrikesZero sampling sampler mass target evidence proposed temperature randomness := by
  have hm (decided : (matchTarget sampling sampler target proposed temperature).outcome
      randomness = (.ok decision, left)) : 0 < mass target (decision.committed proposed) :=
    (supported.matchTarget_returns target proposed temperature).of_ok decided
  cases evidence with
  | targetMatching =>
    refine iff_of_true (hm decided) fun hs => ?_
    obtain ⟨draft, hc⟩ := hs.causal
    cases hc
  | causalDistribution draft =>
    unfold decideSpeculativeProposal at decided
    dsimp only at decided
    split at decided
    · next hg =>
      exact iff_of_true (hm decided) fun hs => Bool.false_ne_true (hs.stochastic.symm.trans hg)
    · next hst =>
      rw [(supported.weighLikelihoods_yields (possible draft rfl) temperature randomness).of_ok
        (congrArg Prod.fst decided)]
      refine not_congr ⟨fun hs => ?_, fun hs => ⟨hs.forbidden, hs.draw⟩⟩
      exact ⟨Bool.eq_false_iff.mpr hst, ⟨draft, rfl⟩, hs.1, hs.2⟩

/-- A sampler of weights whose random state is the next unit draw. Of the tokens `0` and `1` it
samples the first that has weight. -/
def weightSampling : SpeculativeSampling Unit (TokenId → ℕ) ℚ ℚ Unit where
  sample _ distribution _ _ randomness :=
    (if 0 < distribution 0 then .ok 0 else if 0 < distribution 1 then .ok 1 else .error (),
      randomness)
  probabilityAt _ distribution token _ := .ok (distribution token)
  sampleUnitInterval _ randomness :=
    match randomness with
    | some draw => (if 0 ≤ draw ∧ draw < 1 then .ok draw else .error (), none)
    | none => (.error (), none)
  positiveProbabilityDifference _ left right _ := .ok (some fun token => left token - right token)

theorem weightSampling_supported :
    SupportedSampling weightSampling () fun distribution token => (distribution token : ℚ) where
  nonneg _ _ := Nat.cast_nonneg _
  probabilityAt _ _ _ hre := (Except.ok.inj hre).symm
  sample distribution _ _ token hd := by
    simp only [weightSampling] at hd
    split at hd
    · next hf =>
      cases hd
      exact Nat.cast_pos.mpr hf
    · split at hd
      · next hs =>
        cases hd
        exact Nat.cast_pos.mpr hs
      · cases hd
  unitInterval randomness draw hd := by
    cases randomness with
    | none => cases hd
    | some state =>
      simp only [weightSampling] at hd
      split at hd
      · next hra =>
        cases hd
        exact hra
      · cases hd
  difference left right _ token hr hp := by
    cases hr
    exact_mod_cast Nat.lt_of_sub_pos (Nat.cast_pos.mp hp)

def pointWeight (chosen token : TokenId) : ℕ := if token = chosen then 1 else 0

/-- At the draw 1/2 a proposal outside the target's support is replaced by a token in it. -/
theorem decide_supported_iff_point : (decideSpeculativeProposal weightSampling () (pointWeight 1)
      (.causalDistribution (pointWeight 0)) 0 (.finite 1)).outcome (some (1 / 2)) =
        (.ok (.reject 1), none) ∧ 0 < ((pointWeight 1 1 : ℕ) : ℚ) := by
  have hd : (decideSpeculativeProposal weightSampling () (pointWeight 1)
      (.causalDistribution (pointWeight 0)) 0 (.finite 1)).outcome (some (1 / 2)) =
        (.ok (.reject 1), none) := by decide +kernel
  refine ⟨hd, (decide_supported_iff weightSampling () _ weightSampling_supported
    (pointWeight 1) (.causalDistribution (pointWeight 0)) 0 (.finite 1) ?_ _ _ _ hd).mpr ?_⟩
  · intro draft hsa
    cases hsa
    decide +kernel
  · exact fun hs => absurd hs.draw (by decide +kernel)

/-- At the draw zero a proposal that the target gives no mass is accepted. -/
theorem decide_accepts_forbidden : (decideSpeculativeProposal weightSampling () (pointWeight 1)
      (.causalDistribution (pointWeight 0)) 0 (.finite 1)).outcome (some 0) = (.ok .accept, none) ∧
    (weightSampling.sampleUnitInterval () (some 0)).1 = .ok 0 ∧
    weightSampling.probabilityAt () (pointWeight 0) 0 .target = .ok 1 ∧
    weightSampling.probabilityAt () (pointWeight 1) 0 .target = .ok 0 := by
  decide +kernel

end Eredu.Speculation
