import Eredu.Foundation.Effect
import Eredu.Speculation.Generation

/-!
# The accept-or-replace policy

The policy of `speculative.rs` and the methods of the sampling contract that it calls.
Distributions and random state are opaque. Probabilities are the elements of an
ordered field, so that the policy is exact arithmetic. A method taking `&mut self`
returns the state it leaves, also when it fails.
-/

namespace Eredu.Speculation

open Effect (Call)

inductive SamplingPlacement where
  | target
  | draft
  deriving DecidableEq, Repr

structure SpeculativeSampling (Sampler Distribution RandomState Probability Error : Type) where
  sample : Sampler → Distribution → Temperature → SamplingPlacement →
    Call (Option RandomState) Error TokenId
  probabilityAt : Sampler → Distribution → TokenId → SamplingPlacement → Except Error Probability
  sampleUnitInterval : Sampler → Call (Option RandomState) Error Probability
  positiveProbabilityDifference : Sampler → Distribution → Distribution → SamplingPlacement →
    Except Error (Option Distribution)

inductive ProposalEvidence (Distribution : Type) where
  | causalDistribution (distribution : Distribution)
  | targetMatching

inductive ProposalDecision where
  | accept
  | reject (replacement : TokenId)
  deriving DecidableEq, Repr

/-- The token that a decision about `proposed` commits. -/
def ProposalDecision.committed (proposed : TokenId) : ProposalDecision → TokenId
  | .accept => proposed
  | .reject replacement => replacement

section Policy

variable {Sampler Distribution RandomState Probability Error : Type}
  [Field Probability] [LinearOrder Probability]

def speculativeAcceptanceProbability (targetProbability draftProbability : Probability) :
    Probability :=
  if draftProbability ≤ 0 then 1 else min (targetProbability / draftProbability) 1

variable (sampling : SpeculativeSampling Sampler Distribution RandomState Probability Error)

variable (sampler : Sampler) (target : Distribution)

def drawToken (distribution : Distribution) (temperature : Temperature)
    (placement : SamplingPlacement) : Effect (Option RandomState) Error TokenId :=
  .call id id (fun _ randomness _ => randomness)
    (sampling.sample sampler distribution temperature placement)

/-- The target's own token. A greedy choice is made without randomness. -/
def chooseTarget (temperature : Temperature) : Effect (Option RandomState) Error TokenId :=
  if temperature.isZero then .ofResult (sampling.sample sampler target temperature .target none).1
  else drawToken sampling sampler target temperature .target

def matchTarget (proposed : TokenId) (temperature : Temperature) :
    Effect (Option RandomState) Error ProposalDecision := do
  let chosen ← chooseTarget sampling sampler target temperature
  return if chosen = proposed then .accept else .reject chosen

def weighLikelihoods (draft : Distribution) (proposed : TokenId) (temperature : Temperature) :
    Effect (Option RandomState) Error ProposalDecision := do
  let targetProbability ← .ofResult (sampling.probabilityAt sampler target proposed .target)
  let draftProbability ← .ofResult (sampling.probabilityAt sampler draft proposed .target)
  let acceptance := speculativeAcceptanceProbability targetProbability draftProbability
  let draw ← .call id id (fun _ randomness _ => randomness) (sampling.sampleUnitInterval sampler)
  if draw ≤ acceptance then return .accept
  let residual ← .ofResult (sampling.positiveProbabilityDifference sampler target draft .target)
  let replacement ← drawToken sampling sampler (residual.getD target) temperature .target
  return .reject replacement

def decideSpeculativeProposal (evidence : ProposalEvidence Distribution) (proposed : TokenId)
    (temperature : Temperature) : Effect (Option RandomState) Error ProposalDecision :=
  match evidence with
  | .targetMatching => matchTarget sampling sampler target proposed temperature
  | .causalDistribution draft =>
      if temperature.isZero then matchTarget sampling sampler target proposed temperature
      else weighLikelihoods sampling sampler target draft proposed temperature

end Policy

end Eredu.Speculation
