import Eredu.Foundation.Checked
import Mathlib.Data.List.MinMax

/-!
# Prior measurements in automatic planning

The planner settles on a plan without looking at earlier measurements. A measured plan
may then take its place, and the plan that is left is admitted and probed once more.
The backend gives fixed answers, so that its cache of answers is not seen.
-/

namespace Eredu.Planning

open Effect List

structure DevicePlan where
  backend : String
  device : String
  deriving DecidableEq

inductive ResidencyPlan where
  | fullyResident
  | layerwiseHost (deviceLayerWindow : Nat) (deviceBudgetBytes hostBudgetBytes : Option Nat)
  | denseDiskStream (deviceBudgetBytes hostBudgetBytes hostLookahead backgroundQueue : Nat)
  deriving DecidableEq

inductive DraftingPlan (ρ : Type) where
  | disabled
  | embedded (maxDraftTokens : Nat) (lookahead adaptiveLookahead : Bool)
  | external (assistant : ρ)
  deriving DecidableEq

def DraftingPlan.isExternal {ρ : Type} : DraftingPlan ρ → Bool
  | .external _ => true
  | _ => false

/-- `others` are the choices that are only compared here. -/
structure ExecutionPlan (ρ : Type) where
  device : DevicePlan
  residency : ResidencyPlan
  drafting : DraftingPlan ρ
  others : ρ
  deriving DecidableEq

inductive ArtifactFormat where
  | safeTensors
  | gguf
  deriving DecidableEq

/-- An observation is known by its value. -/
structure ModelResourceProfile where
  path : String
  artifactFormat : ArtifactFormat
  modelFamily : Option String
  embeddedDraftCapacity : Option Nat

structure HardwareProfile where
  operatingSystem : String
  architecture : String

structure ExecutionTelemetry (ρ F : Type) where
  schemaVersion : Nat
  plan : Option (ExecutionPlan ρ)
  hardware : Option HardwareProfile
  resources : Option ModelResourceProfile
  generatedTokens : Nat
  tokenRate : F
  decodeTokenRate : Option F

structure CandidateAdmission where
  supported : Bool
  rejection : Option String

structure BoundedResidencyRequirement where
  staticBytes : Nat
  windowBytes : Nat
  requiredBytes : Nat
  depth : Nat

def AUTOMATIC_SCHEMA_VERSION : Nat := 7

/-- What planning has at hand when it comes to the measurements. Rates are `usable` when
they are finite and positive. -/
structure AutomaticPlanner (ρ F : Type) where
  device : DevicePlan
  deviceBudget : Nat
  minimumFeedbackTokens : Nat
  hardware : HardwareProfile
  overrides : ExecutionPlan ρ → ModelResourceProfile → Except String (ExecutionPlan ρ)
  validateCandidate : ExecutionPlan ρ → Except String Unit
  admitCandidate : ExecutionPlan ρ → CandidateAdmission
  boundedResidencyRequirement : ExecutionPlan ρ → BoundedResidencyRequirement
  usable : F → Bool
  mean : F → F → F

namespace AutomaticPlanner

variable {ρ F : Type} [DecidableEq ρ] (p : AutomaticPlanner ρ F)

def rejection (admission : CandidateAdmission) : String := admission.rejection.getD "not admitted"

/-- The device bytes of a plan that is not fully resident. -/
def budget? (plan : ExecutionPlan ρ) : Option Nat :=
  match plan.residency with
  | .fullyResident => none
  | .layerwiseHost _ deviceBudgetBytes _ => some (deviceBudgetBytes.getD p.deviceBudget)
  | .denseDiskStream deviceBudgetBytes _ _ _ => some deviceBudgetBytes

variable (resources : ModelResourceProfile)

def draftsWithin (plan : ExecutionPlan ρ) : Bool :=
  match plan.drafting with
  | .embedded maxDraftTokens _ _ =>
    resources.embeddedDraftCapacity.any fun capacity => maxDraftTokens ≤ capacity
  | _ => true

variable (telemetry : ExecutionTelemetry ρ F)

def rate? : Option F :=
  (telemetry.decodeTokenRate.filter p.usable).or
    (if p.usable telemetry.tokenRate then some telemetry.tokenRate else none)

def measured : Except String (Option (ExecutionPlan ρ × F)) :=
  match telemetry.plan, telemetry.hardware, telemetry.resources with
  | some plan, some priorHardware, some priorResources =>
    if telemetry.schemaVersion ≠ AUTOMATIC_SCHEMA_VERSION ∨
        telemetry.generatedTokens < p.minimumFeedbackTokens ∨ plan.device ≠ p.device ∨
        priorResources.path ≠ resources.path ∨
        priorResources.artifactFormat ≠ resources.artifactFormat ∨
        priorResources.modelFamily ≠ resources.modelFamily ∨
        priorHardware.operatingSystem ≠ p.hardware.operatingSystem ∨
        priorHardware.architecture ≠ p.hardware.architecture ∨
        plan.drafting.isExternal then .ok none
    else do
      let overridden ← p.overrides plan resources
      if overridden ≠ plan ∨ !draftsWithin resources plan then return none
      return (p.rate? telemetry).map (plan, ·)
  | _, _, _ => .ok none

/-- The rates of a plan are collected where the plan was first seen. -/
def addRate (plan : ExecutionPlan ρ) (rate : F) :
    List (ExecutionPlan ρ × List F) → List (ExecutionPlan ρ × List F)
  | [] => [(plan, [rate])]
  | (candidate, rates) :: groups =>
    if candidate = plan then (candidate, rates ++ [rate]) :: groups
    else (candidate, rates) :: addRate plan rate groups

def collect (groups : List (ExecutionPlan ρ × List F))
    (telemetry : ExecutionTelemetry ρ F) : Except String (List (ExecutionPlan ρ × List F)) := do
  match ← p.measured resources telemetry with
  | none => return groups
  | some (plan, rate) => return addRate plan rate groups

variable [LinearOrder F]

def median (rates : List F) : Option F :=
  let sorted := rates.mergeSort
  let middle := rates.length / 2
  if rates.length % 2 = 0 then do p.mean (← sorted[middle - 1]?) (← sorted[middle]?)
  else sorted[middle]?

variable (plan : ExecutionPlan ρ)

def accepts : Bool :=
  (p.validateCandidate plan).isOk && (p.admitCandidate plan).supported

variable (resources : ModelResourceProfile) (priorTelemetry : List (ExecutionTelemetry ρ F))

/-- Of plans with the greatest median the last one is taken. -/
def selectFeedbackPlan : Except String (Option (ExecutionPlan ρ × Nat × F)) := do
  let groups ← priorTelemetry.foldlM (p.collect resources) []
  let accepted := groups.filterMap fun group =>
    if p.accepts group.1 then (p.median group.2).map (group.1, group.2.length, ·) else none
  return accepted.reverse.argmax (·.2.2)

def Fits : Prop :=
  ∀ budget ∈ p.budget? plan, (p.boundedResidencyRequirement plan).requiredBytes ≤ budget

end AutomaticPlanner

namespace AutomaticPlanner

variable {ρ F : Type} [DecidableEq ρ]

section

variable (p : AutomaticPlanner ρ F) (resources : ModelResourceProfile)

/-- A measurement of a plan for the device, model and hardware at hand. -/
structure Matches (telemetry : ExecutionTelemetry ρ F) (plan : ExecutionPlan ρ) : Prop where
  named : telemetry.plan = some plan
  version : telemetry.schemaVersion = AUTOMATIC_SCHEMA_VERSION
  enough : p.minimumFeedbackTokens ≤ telemetry.generatedTokens
  device : plan.device = p.device
  drafting : ¬plan.drafting.isExternal
  model : ∃ prior ∈ telemetry.resources, prior.path = resources.path ∧
    prior.artifactFormat = resources.artifactFormat ∧ prior.modelFamily = resources.modelFamily
  hardware : ∃ prior ∈ telemetry.hardware, prior.operatingSystem = p.hardware.operatingSystem ∧
    prior.architecture = p.hardware.architecture

/-- A usable measurement: the overrides leave the plan as it is, its drafts are within the capacity,
and the rate is the one of decoding, or the overall one where that is not usable. -/
structure Measures (telemetry : ExecutionTelemetry ρ F) (plan : ExecutionPlan ρ) (rate : F) : Prop
    extends p.Matches resources telemetry plan where
  kept : p.overrides plan resources = .ok plan
  within : draftsWithin resources plan
  usable : p.usable rate
  rate : telemetry.decodeTokenRate = some rate ∨
    (∀ decode ∈ telemetry.decodeTokenRate, ¬p.usable decode) ∧ telemetry.tokenRate = rate

/-- The usable rates of a plan, in the order of the measurements. -/
inductive Rates (plan : ExecutionPlan ρ) : List (ExecutionTelemetry ρ F) → List F → Prop
  | nil : Rates plan [] []
  | take {telemetry prior rate rates} : p.Measures resources telemetry plan rate →
      Rates plan prior rates → Rates plan (telemetry :: prior) (rate :: rates)
  | skip {telemetry prior rates} : (∀ rate, ¬p.Measures resources telemetry plan rate) →
      Rates plan prior rates → Rates plan (telemetry :: prior) rates

variable [LinearOrder F]

/-- The rate with as many rates below as above it, or the mean of the two such rates. -/
inductive IsMedian (rates : List F) : F → Prop
  | middle {low high : List F} {rate : F} : rates.Perm (low ++ rate :: high) →
      low.length = high.length → (∀ other ∈ low, other ≤ rate) → (∀ other ∈ high, rate ≤ other) →
      IsMedian rates rate
  | between {low high : List F} {left right : F} : rates.Perm (low ++ left :: right :: high) →
      low.length = high.length → (∀ other ∈ low, other ≤ left) → left ≤ right →
      (∀ other ∈ high, right ≤ other) → IsMedian rates (p.mean left right)

/-- An accepted plan with the number of its measurements and their median. -/
def Candidate (priorTelemetry : List (ExecutionTelemetry ρ F))
    (picked : ExecutionPlan ρ × Nat × F) : Prop :=
  p.accepts picked.1 ∧ ∃ rates, p.Rates resources picked.1 priorTelemetry rates ∧
    picked.2.1 = rates.length ∧ p.IsMedian rates picked.2.2

def Fastest (priorTelemetry : List (ExecutionTelemetry ρ F))
    (picked : ExecutionPlan ρ × Nat × F) : Prop :=
  p.Candidate resources priorTelemetry picked ∧
    ∀ other, p.Candidate resources priorTelemetry other → other.2.2 ≤ picked.2.2

end

variable {p : AutomaticPlanner ρ F} {resources : ModelResourceProfile} {plan : ExecutionPlan ρ}

section Measured

variable {telemetry : ExecutionTelemetry ρ F}

omit [DecidableEq ρ] in
theorem rate?_eq_some {rate : F} : p.rate? telemetry = some rate ↔ p.usable rate ∧
    (telemetry.decodeTokenRate = some rate ∨
      (∀ decode ∈ telemetry.decodeTokenRate, ¬p.usable decode) ∧ telemetry.tokenRate = rate) := by
  unfold rate?
  cases telemetry.decodeTokenRate with
  | none => simp [Option.filter]; grind
  | some decode => by_cases usable : p.usable decode <;> simp [Option.filter, usable] <;> grind

theorem measured_of_matches (same : p.Matches resources telemetry plan) :
    p.measured resources telemetry = do
      let overridden ← p.overrides plan resources
      if overridden ≠ plan ∨ !draftsWithin resources plan then return none
      return (p.rate? telemetry).map (plan, ·) := by
  obtain ⟨model, givenModel, path, format, family⟩ := same.model
  obtain ⟨hardware, givenHardware, system, architecture⟩ := same.hardware
  have enough := same.enough
  simp [measured, same.named, Option.mem_def.mp givenModel, Option.mem_def.mp givenHardware,
    same.version, same.device, path, format, family, system, architecture, same.drafting, enough]

theorem measured_of_not_matches (differs : ∀ plan, ¬p.Matches resources telemetry plan) :
    p.measured resources telemetry = .ok none := by
  unfold measured
  split
  · rename_i plan _ _ named hardware model
    split
    · rfl
    · rename_i same
      simp only [not_or, ne_eq, not_not, not_lt] at same
      obtain ⟨version, enough, device, path, format, family, system, architecture, drafting⟩ := same
      exact absurd ⟨named, version, enough, device, drafting, ⟨_, model, path, format, family⟩,
        ⟨_, hardware, system, architecture⟩⟩ (differs plan)
  · rfl

theorem measured_eq_some {rate : F} : p.measured resources telemetry = .ok (some (plan, rate)) ↔
    p.Measures resources telemetry plan rate := by
  by_cases same : ∃ other, p.Matches resources telemetry other
  · obtain ⟨other, same⟩ := same
    rw [measured_of_matches same]
    constructor
    · intro found
      obtain ⟨overridden, kept, found⟩ := bind_eq_ok.mp found
      split at found
      · cases found
      · rename_i unchanged
        simp only [not_or, ne_eq, not_not] at unchanged
        obtain ⟨_, taken, ⟨⟩⟩ := Option.map_eq_some_iff.mp (Except.ok.inj found)
        obtain ⟨usable, rate⟩ := rate?_eq_some.mp taken
        exact ⟨same, unchanged.1 ▸ kept, by simpa using unchanged.2, usable, rate⟩
    · intro measures
      obtain rfl := Option.some.inj (same.named.symm.trans measures.named)
      rw [measures.kept, ok_bind, rate?_eq_some.mpr ⟨measures.usable, measures.rate⟩]
      simp [measures.within]
      rfl
  · rw [measured_of_not_matches (not_exists.mp same)]
    constructor
    · rintro ⟨⟩
    · exact fun measures => absurd ⟨plan, measures.toMatches⟩ same

end Measured

variable {priorTelemetry : List (ExecutionTelemetry ρ F)}

variable (p resources) in
def rateOf? (plan : ExecutionPlan ρ) (telemetry : ExecutionTelemetry ρ F) : Option F :=
  match p.measured resources telemetry with
  | .ok (some (measured, rate)) => if measured = plan then some rate else none
  | _ => none

theorem rateOf?_eq_some {telemetry : ExecutionTelemetry ρ F} {rate : F} :
    p.rateOf? resources plan telemetry = some rate ↔ p.Measures resources telemetry plan rate := by
  rw [← measured_eq_some]
  unfold rateOf?
  split <;> simp_all

theorem rates_iff {rates : List F} :
    p.Rates resources plan priorTelemetry rates ↔
      rates = priorTelemetry.filterMap (p.rateOf? resources plan) := by
  constructor
  · intro rated
    induction rated with
    | nil => rfl
    | take measures _ ih => rw [filterMap_cons, rateOf?_eq_some.mpr measures, ih]
    | @skip telemetry _ _ never _ ih =>
      have none : p.rateOf? resources plan telemetry = none :=
        Option.eq_none_iff_forall_ne_some.mpr fun rate found => never rate (rateOf?_eq_some.mp found)
      rw [filterMap_cons, none, ih]
  · rintro rfl
    induction priorTelemetry with
    | nil => exact .nil
    | cons telemetry prior ih =>
      rw [filterMap_cons]
      cases found : p.rateOf? resources plan telemetry with
      | none => exact .skip (fun rate measures => by simp [rateOf?_eq_some.mpr measures] at found) ih
      | some rate => exact .take (rateOf?_eq_some.mp found) ih

/-- Every measured plan stands in one group, with all its rates. -/
structure Grouped (rates : ExecutionPlan ρ → List F) (groups : List (ExecutionPlan ρ × List F)) :
    Prop where
  once : (groups.map (·.1)).Nodup
  mem_iff : ∀ group, group ∈ groups ↔ group.2 = rates group.1 ∧ group.2 ≠ []

theorem addRate_keys (rate : F) (groups : List (ExecutionPlan ρ × List F)) :
    (addRate plan rate groups).map (·.1) = if plan ∈ groups.map (·.1) then groups.map (·.1)
      else groups.map (·.1) ++ [plan] := by
  fun_induction addRate plan rate groups with grind

theorem mem_addRate_iff {rate : F} {groups : List (ExecutionPlan ρ × List F)}
    {group : ExecutionPlan ρ × List F} (hn : (groups.map (·.1)).Nodup) :
    group ∈ addRate plan rate groups ↔ group ∈ groups ∧ group.1 ≠ plan ∨
      (∃ rates, (plan, rates) ∈ groups ∧ group = (plan, rates ++ [rate])) ∨
      plan ∉ groups.map (·.1) ∧ group = (plan, [rate]) := by
  fun_induction addRate plan rate groups with grind

theorem Grouped.addRate {rates : ExecutionPlan ρ → List F}
    {groups : List (ExecutionPlan ρ × List F)} (hg : Grouped rates groups) (rate : F) :
    Grouped (fun other => rates other ++ if plan = other then [rate] else [])
      (addRate plan rate groups) := by
  obtain ⟨once, hm⟩ := hg
  refine ⟨?_, fun group => ?_⟩
  · rw [addRate_keys]
    grind
  · have listed : plan ∈ groups.map (·.1) ↔ rates plan ≠ [] := by simp [hm]
    rw [mem_addRate_iff once, listed]
    simp only [hm]
    obtain ⟨other, measured⟩ := group
    by_cases he : plan = other
    · subst he
      by_cases hr : rates plan = [] <;> simp +contextual [hr]
    · simp [he, Ne.symm he]

theorem grouped_collect {groups : List (ExecutionPlan ρ × List F)}
    (hc : priorTelemetry.foldlM (p.collect resources) [] = .ok groups) :
    Grouped (fun plan => priorTelemetry.filterMap (p.rateOf? resources plan)) groups := by
  induction priorTelemetry using List.reverseRecOn generalizing groups with
  | nil =>
    cases hc
    exact ⟨nodup_nil, by simp⟩
  | append_singleton prior telemetry ih =>
    rw [foldlM_append, bind_eq_ok] at hc
    obtain ⟨before, hb, hc⟩ := hc
    rw [foldlM_cons, bind_eq_ok] at hc
    obtain ⟨_, hc, ⟨⟩⟩ := hc
    obtain ⟨sample, hs, hc⟩ := bind_eq_ok.mp hc
    have hg := ih hb
    match sample with
    | none =>
      cases hc
      simpa [rateOf?, hs] using hg
    | some (plan, rate) =>
      cases hc
      convert hg.addRate rate using 2 with other
      rw [filterMap_append]
      by_cases same : plan = other <;> simp [rateOf?, hs, same]

variable [LinearOrder F]

/-- What lies around a middle part that is in order is sorted on its own. -/
theorem mergeSort_around {rates low middle high : List F} (perm : rates.Perm (low ++ middle ++ high))
    (rising : middle.Pairwise (· ≤ ·)) (below : ∀ left ∈ low, ∀ rate ∈ middle ++ high, left ≤ rate)
    (above : ∀ rate ∈ middle, ∀ right ∈ high, rate ≤ right) :
    rates.mergeSort = low.mergeSort ++ middle ++ high.mergeSort := by
  refine List.Perm.eq_of_sortedLE sortedLE_mergeSort ?_ ((mergeSort_perm _ _).trans ?_)
  · rw [sortedLE_iff_pairwise]
    simp only [pairwise_append, mem_mergeSort, mem_append]
    refine ⟨⟨sortedLE_mergeSort.pairwise, rising, ?_⟩, sortedLE_mergeSort.pairwise, ?_⟩
    · grind
    · grind
  · refine perm.trans (((mergeSort_perm _ _).symm.append_right _).append (mergeSort_perm _ _).symm)

omit [DecidableEq ρ] in
theorem median_eq_some {rates : List F} {rate : F} :
    p.median rates = some rate ↔ p.IsMedian rates rate := by
  unfold median
  dsimp only
  constructor
  · have rising : rates.mergeSort.Pairwise (· ≤ ·) := sortedLE_mergeSort.pairwise
    have perm : rates.mergeSort.Perm rates := mergeSort_perm _ _
    have size := perm.length_eq
    generalize rates.mergeSort = sorted at *
    intro found
    split at found
    · next even =>
      obtain ⟨left, before, found⟩ := Option.bind_eq_some_iff.mp found
      obtain ⟨right, behind, ⟨⟩⟩ := Option.bind_eq_some_iff.mp found
      obtain ⟨within, rfl⟩ := List.getElem?_eq_some_iff.mp behind
      obtain ⟨half, halved⟩ : ∃ half, rates.length / 2 = half + 1 := ⟨rates.length / 2 - 1, by omega⟩
      simp only [halved, Nat.add_sub_cancel] at before within ⊢
      obtain ⟨inside, rfl⟩ := List.getElem?_eq_some_iff.mp before
      have cut := take_append_drop half sorted
      rw [drop_eq_getElem_cons inside, drop_eq_getElem_cons within] at cut
      rw [← cut, pairwise_append, pairwise_cons, pairwise_cons] at rising
      obtain ⟨-, ⟨next, above, -⟩, below⟩ := rising
      refine .between (by rw [cut]; exact perm.symm) ?_
        (fun other listed => below other listed _ mem_cons_self) (next _ mem_cons_self) above
      simp only [length_take, length_drop]
      omega
    · next odd =>
      obtain ⟨within, rfl⟩ := List.getElem?_eq_some_iff.mp found
      have cut := take_append_drop (rates.length / 2) sorted
      rw [drop_eq_getElem_cons within] at cut
      rw [← cut, pairwise_append, pairwise_cons] at rising
      obtain ⟨-, ⟨above, -⟩, below⟩ := rising
      refine .middle (by rw [cut]; exact perm.symm) ?_
        (fun other listed => below other listed _ mem_cons_self) above
      simp only [length_take, length_drop]
      omega
  · intro isMedian
    cases isMedian with
    | @middle low high _ perm same below above =>
      have sorted := @mergeSort_around _ _ rates low [rate] high (by simpa using perm)
        (pairwise_singleton _ _) (by grind) (by grind)
      have size := perm.length_eq
      simp only [length_append, length_cons] at size
      have place : rates.length / 2 = low.mergeSort.length := by
        rw [length_mergeSort]
        omega
      rw [if_neg (by omega), sorted, place]
      simp
    | @between low high left right perm same below rising above =>
      have sorted := @mergeSort_around _ _ rates low [left, right] high (by simpa using perm)
        (by simpa using rising) (by grind) (by grind)
      have size := perm.length_eq
      simp only [length_append, length_cons] at size
      have place : rates.length / 2 = low.mergeSort.length + 1 := by
        rw [length_mergeSort]
        omega
      rw [if_pos (by omega), sorted, place]
      simp

theorem mem_candidates {groups : List (ExecutionPlan ρ × List F)}
    (collected : priorTelemetry.foldlM (p.collect resources) [] = .ok groups)
    (picked : ExecutionPlan ρ × Nat × F) : picked ∈ (groups.filterMap fun group =>
      if p.accepts group.1 then (p.median group.2).map (group.1, group.2.length, ·) else none) ↔
        p.Candidate resources priorTelemetry picked := by
  have grouped := (grouped_collect collected).mem_iff
  obtain ⟨plan, count, rate⟩ := picked
  simp only [mem_filterMap, Option.ite_none_right_eq_some, Option.map_eq_some_iff, Candidate,
    rates_iff, exists_eq_left]
  constructor
  · rintro ⟨group, listed, accepted, _, taken, ⟨⟩⟩
    have rates := ((grouped group).mp listed).1
    rw [rates] at taken
    exact ⟨accepted, congrArg _ rates, median_eq_some.mp taken⟩
  · rintro ⟨accepted, counted, isMedian⟩
    obtain rfl : count = _ := counted
    have taken := median_eq_some.mpr isMedian
    refine ⟨(plan, _), (grouped _).mpr ⟨rfl, fun none => ?_⟩, accepted, rate, taken, rfl⟩
    simp [show priorTelemetry.filterMap (p.rateOf? resources plan) = [] from none, median] at taken

theorem picked_fastest {picked : ExecutionPlan ρ × Nat × F}
    (selected : p.selectFeedbackPlan resources priorTelemetry = .ok (some picked)) :
    p.Fastest resources priorTelemetry picked := by
  obtain ⟨groups, collected, chosen⟩ := bind_eq_ok.mp selected
  have mem := mem_candidates collected
  have best := Except.ok.inj chosen
  refine ⟨(mem _).mp (mem_reverse.mp (argmax_mem best)), fun other listed => ?_⟩
  exact le_of_mem_argmax (f := (·.2.2)) (mem_reverse.mpr ((mem other).mpr listed)) best

omit [DecidableEq ρ] in
/-- A candidate was measured. -/
theorem Candidate.listed {picked : ExecutionPlan ρ × Nat × F}
    (candidate : p.Candidate resources priorTelemetry picked) :
    ∃ telemetry ∈ priorTelemetry, telemetry.plan = some picked.1 := by
  obtain ⟨plan, count, rate⟩ := picked
  obtain ⟨-, rates, rated, -, isMedian⟩ := candidate
  dsimp only at rated isMedian ⊢
  have measured : rates ≠ [] := by
    rintro rfl
    cases isMedian with
    | middle perm | between perm => simpa using perm.length_eq
  clear isMedian
  induction rated with
  | nil => exact absurd rfl measured
  | take measures => exact ⟨_, mem_cons_self, measures.named⟩
  | skip _ _ ih =>
    obtain ⟨telemetry, listed, named⟩ := ih measured
    exact ⟨telemetry, mem_cons_of_mem _ listed, named⟩

/-- The chosen plan is a fastest candidate, and where none is chosen there is none. -/
theorem feedback_plan_fastest {feedback : Option (ExecutionPlan ρ × Nat × F)}
    (selected : p.selectFeedbackPlan resources priorTelemetry = .ok feedback) :
    (∀ picked ∈ feedback, p.Fastest resources priorTelemetry picked) ∧
    (feedback = none → ∀ other, ¬p.Candidate resources priorTelemetry other) := by
  constructor
  · rintro picked ⟨⟩
    exact picked_fastest selected
  · rintro rfl other candidate
    obtain ⟨groups, collected, chosen⟩ := bind_eq_ok.mp selected
    have empty := argmax_eq_none.mp (Except.ok.inj chosen)
    rw [← mem_candidates collected, reverse_eq_nil_iff.mp empty] at candidate
    exact not_mem_nil candidate

end AutomaticPlanner

/-- A backend whose window needs two bytes of the device. -/
def narrow : AutomaticPlanner Unit Nat where
  device := ⟨"mlx", "gpu"⟩
  deviceBudget := 8
  minimumFeedbackTokens := 1
  hardware := ⟨"macos", "aarch64"⟩
  overrides plan _ := .ok plan
  validateCandidate _ := .ok ()
  admitCandidate _ := ⟨true, none⟩
  boundedResidencyRequirement _ := ⟨1, 1, 2, 1⟩
  usable rate := 0 < rate
  mean left right := (left + right) / 2

def resident : ExecutionPlan Unit := ⟨⟨"mlx", "gpu"⟩, .fullyResident, .disabled, ()⟩

/-- A measured plan that leaves one byte to the window. -/
def layered : ExecutionPlan Unit := { resident with residency := .layerwiseHost 1 (some 1) none }

def profile : ModelResourceProfile := ⟨"model", .gguf, none, none⟩

def measurement (plan : ExecutionPlan Unit) (rate : Nat) : ExecutionTelemetry Unit Nat :=
  ⟨AUTOMATIC_SCHEMA_VERSION, some plan, some narrow.hardware, some profile, 1, rate, none⟩

/-- A plan with room for the window. -/
def roomy : ExecutionPlan Unit := { resident with residency := .layerwiseHost 1 (some 2) none }

/-- It was measured twice, and a slower plan without room in between. -/
def measurements : List (ExecutionTelemetry Unit Nat) :=
  [measurement roomy 3, measurement layered 2, measurement roomy 5]

def groups : List (ExecutionPlan Unit × List Nat) := [(roomy, [3, 5]), (layered, [2])]

theorem collect_measurements :
    measurements.foldlM (narrow.collect profile) [] = .ok groups := by decide +kernel

theorem accepted_groups : (groups.filterMap fun group => if narrow.accepts group.1 then
      (narrow.median group.2).map (group.1, group.2.length, ·) else none) =
    [(roomy, 2, 4), (layered, 1, 2)] := by
  have two : narrow.median [3, 5] = some 4 :=
    AutomaticPlanner.median_eq_some.mpr
      (.between (.refl ([] ++ 3 :: 5 :: [])) rfl nofun (by decide) nofun)
  have one : narrow.median [2] = some 2 :=
    AutomaticPlanner.median_eq_some.mpr (.middle (.refl ([] ++ 2 :: [])) rfl nofun nofun)
  simp [groups, two, one, show ∀ plan, narrow.accepts plan = true from fun _ => rfl]

theorem feedback_plan_roomy : narrow.Fastest profile measurements (roomy, 2, 4) :=
  have selected : narrow.selectFeedbackPlan profile measurements = .ok (some (roomy, 2, 4)) := by
    rw [AutomaticPlanner.selectFeedbackPlan, collect_measurements, Effect.ok_bind, accepted_groups]
    rfl
  (AutomaticPlanner.feedback_plan_fastest selected).1 _ rfl

end Eredu.Planning
