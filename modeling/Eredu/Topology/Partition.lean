import Eredu.Topology.Ranks

/-!
# Balanced partitions

`balanced_contiguous_range` gives each part of a partition its range of items. The
first parts take one item more where the items do not divide evenly.
-/

namespace Eredu.Topology

open Nat Word

structure Span where
  start : Nat
  stop : Nat
  deriving Repr, DecidableEq

def balancedContiguousRange (total parts index : Nat) (allowEmpty : Bool) :
    Except TopologyError Span := do
  if parts = 0 then .error .zeroPartitions
  else if parts ≤ index then .error (.partitionOutOfRange index parts)
  else if !allowEmpty && total < parts then .error (.emptyPartition total parts)
  else
    let base := total / parts
    let extra := total % parts
    let start ← required .partitionOverflow
      ((checkedMul index base).bind fun value => checkedAdd value (min index extra))
    let stop ← required .partitionOverflow
      (checkedAdd start (base + if index < extra then 1 else 0))
    .ok ⟨start, stop⟩

variable (r : ParallelRankTopology)

def ParallelRankTopology.layerRange (layers : Nat) : Except TopologyError Span :=
  balancedContiguousRange layers r.topology.pipeline r.coordinates.pipeline false

def ParallelRankTopology.expertRange (experts : Nat) : Except TopologyError Span :=
  balancedContiguousRange experts r.topology.expert r.coordinates.expert false

def cut (total parts index : Nat) : Nat := index * (total / parts) + min index (total % parts)

variable {total parts : Nat}

theorem cut_succ (total parts index : Nat) : cut total parts (index + 1) =
    cut total parts index + (total / parts + if index < total % parts then 1 else 0) := by
  rw [cut, cut, succ_mul]
  split <;> omega

theorem cut_parts (hp : 1 ≤ parts) : cut total parts parts = total := by
  rw [cut, min_eq_right (mod_lt _ hp).le]
  exact div_add_mod total parts

theorem cut_mono (total parts : Nat) : Monotone (cut total parts) :=
  monotone_nat_of_le_succ fun index => (cut_succ total parts index).symm ▸ le_add_right _ _

/-- No representable total overflows. -/
theorem balancedContiguousRange_eq {index : Nat} {allowEmpty : Bool} (hw : total ≤ maximum)
    (hi : index < parts) (he : allowEmpty = true ∨ parts ≤ total) :
    balancedContiguousRange total parts index allowEmpty =
      .ok ⟨cut total parts index, cut total parts (index + 1)⟩ := by
  have stop : cut total parts (index + 1) ≤ maximum :=
    ((cut_mono total parts hi).trans_eq (cut_parts (one_le_of_lt hi))).trans hw
  have start := (cut_mono total parts (le_add_right index 1)).trans stop
  have filled : (!allowEmpty && decide (total < parts)) = false := by
    rcases he with rfl | he <;> simp [*]
  have first : checkedMul index (total / parts) = some (index * (total / parts)) :=
    if_pos ((le_add_right _ _).trans start)
  have second : checkedAdd (index * (total / parts)) (min index (total % parts)) =
    some (cut total parts index) := if_pos start
  have third : checkedAdd (cut total parts index)
      (total / parts + if index < total % parts then 1 else 0) =
    some (cut total parts (index + 1)) := by
    rw [cut_succ] at stop ⊢
    exact if_pos stop
  rw [balancedContiguousRange, if_neg (by omega), if_neg (by omega), if_neg (by simp [filled])]
  dsimp only
  rw [first, Option.bind_some, second, required_some, Effect.ok_bind, third]
  rfl

/-- Every item lies between two neighbouring cuts, and only there. -/
theorem existsUnique_cut {item : Nat} (hp : 1 ≤ parts) (hi : item < total) :
    ∃! index, index < parts ∧ cut total parts index ≤ item ∧ item < cut total parts (index + 1) := by
  have found : ∃ index, index < parts ∧ item < cut total parts (index + 1) :=
    ⟨parts - 1, by omega, by rwa [Nat.sub_add_cancel hp, cut_parts hp]⟩
  obtain ⟨inside, below⟩ := Nat.find_spec found
  refine ⟨Nat.find found, ⟨inside, ?_, below⟩, fun other ⟨ho, hs, hb⟩ => ?_⟩
  · cases hf : Nat.find found with
    | zero => simp [cut]
    | succ before =>
      have earlier := Nat.find_min found (show before < Nat.find found by omega)
      exact not_lt.mp fun hl => earlier ⟨by omega, hl⟩
  · refine le_antisymm (not_lt.mp fun hl => ?_) (Nat.find_min' found ⟨ho, hb⟩)
    exact absurd (below.trans_le ((cut_mono total parts hl).trans hs)) (lt_irrefl _)

theorem exists_owner {item : Nat} {allowEmpty : Bool} (hw : total ≤ maximum) (hp : 1 ≤ parts)
    (he : allowEmpty = true ∨ parts ≤ total) (hi : item < total) :
    ∃ owner < parts, ∀ index < parts, ∃ span,
      balancedContiguousRange total parts index allowEmpty = .ok span ∧
        (span.start ≤ item ∧ item < span.stop ↔ index = owner) := by
  obtain ⟨owner, ⟨inside, owns⟩, only⟩ := existsUnique_cut hp hi
  refine ⟨owner, inside, fun index hx => ⟨_, balancedContiguousRange_eq hw hx he, ?_⟩⟩
  exact ⟨fun lies => only index ⟨hx, lies⟩, fun same => same ▸ owns⟩

/-- The ranges of all parts follow one another from 0 to the total, so every item has one owner; layers
and experts are owned by one stage and by one expert rank. -/
theorem balanced_partition (hw : total ≤ maximum) (hp : 1 ≤ parts) {allowEmpty : Bool}
    (he : allowEmpty = true ∨ parts ≤ total) :
    (∃ cuts : Nat → Nat, cuts 0 = 0 ∧ cuts parts = total ∧
      (∀ index < parts, balancedContiguousRange total parts index allowEmpty =
        .ok ⟨cuts index, cuts (index + 1)⟩) ∧ (∀ first second, first ≤ second → second < parts →
        cuts (second + 1) - cuts second ≤ cuts (first + 1) - cuts first ∧
        cuts (first + 1) - cuts first ≤ cuts (second + 1) - cuts second + 1) ∧
      (∀ index < parts, cuts index ≤ cuts (index + 1)) ∧
      (allowEmpty = false → ∀ index < parts, cuts index < cuts (index + 1))) ∧
    (∀ item < total, ∃! index, index < parts ∧ ∃ span,
      balancedContiguousRange total parts index allowEmpty = .ok span ∧
        span.start ≤ item ∧ item < span.stop) ∧
    ∀ (t : ParallelTopology) (item : Nat), item < total →
      (t.pipeline ≤ total → ∃ stage < t.pipeline, ∀ r : ParallelRankTopology, r.topology = t →
        ∃ span, r.layerRange total = .ok span ∧
          (span.start ≤ item ∧ item < span.stop ↔ r.coordinates.pipeline = stage)) ∧
      (t.expert ≤ total → ∃ owner < t.expert, ∀ r : ParallelRankTopology, r.topology = t →
        ∃ span, r.expertRange total = .ok span ∧
          (span.start ≤ item ∧ item < span.stop ↔ r.coordinates.expert = owner)) := by
  have size := cut_succ total parts
  refine ⟨⟨cut total parts, by simp [cut], cut_parts hp,
    fun index hi => balancedContiguousRange_eq hw hi he, fun first second hl _ => ?_,
    fun index _ => cut_mono total parts (le_add_right index 1), fun filled index _ => ?_⟩,
    fun item hi => ?_, fun t item hi => ⟨fun hl => ?_, fun hl => ?_⟩⟩
  · rw [size first, size second, Nat.add_sub_cancel_left, Nat.add_sub_cancel_left]
    split <;> split <;> omega
  · have base : 0 < total / parts := div_pos (he.resolve_left (by simp [filled])) hp
    rw [size index]
    omega
  · obtain ⟨owner, inside, owns⟩ := exists_owner hw hp he hi
    obtain ⟨span, found, lies⟩ := owns owner inside
    refine ⟨owner, ⟨inside, span, found, lies.mpr rfl⟩, fun other ⟨ho, span, found, lies⟩ => ?_⟩
    obtain ⟨_, same, iff⟩ := owns other ho
    cases found.symm.trans same
    exact iff.mp lies
  · obtain ⟨stage, inside, owns⟩ := exists_owner hw (t.size_pos .pipeline) (.inr hl) hi
    refine ⟨stage, inside, ?_⟩
    rintro r rfl
    exact owns _ (r.contains .pipeline)
  · obtain ⟨owner, inside, owns⟩ := exists_owner hw (t.size_pos .expert) (.inr hl) hi
    refine ⟨owner, inside, ?_⟩
    rintro r rfl
    exact owns _ (r.contains .expert)

/-- Seven items over three parts: three, two and two. -/
theorem balanced_partition_seven :
    (∃! index, index < 3 ∧ ∃ span, balancedContiguousRange 7 3 index false = .ok span ∧
      span.start ≤ 3 ∧ 3 < span.stop) ∧
    [0, 1, 2].map (fun index => balancedContiguousRange 7 3 index false) =
      [.ok ⟨0, 3⟩, .ok ⟨3, 5⟩, .ok ⟨5, 7⟩] :=
  ⟨(balanced_partition (by decide) (by decide) (.inr (by decide))).2.1 3 (by decide), by decide⟩

end Eredu.Topology
