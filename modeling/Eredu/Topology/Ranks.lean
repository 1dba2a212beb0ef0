import Eredu.Foundation.Agreement
import Eredu.Foundation.Checked
import Eredu.Foundation.RowMajor

/-!
# Ranks of a parallel topology

`topology.rs`: the ranks of a run are the cells of a box with four axes. Global
ranks and subgroup colors both read the coordinates in row-major order, the data
axis first and the expert axis last; a color leaves out the axis of its subgroup.
-/

namespace Eredu.Topology

open List Nat Word Effect Except
open RowMajor (ravel unravel)

inductive ParallelAxis where
  | tensor
  | pipeline
  | expert
  | data
  deriving Repr, DecidableEq

structure ParallelCoordinates where
  tensor : Nat
  pipeline : Nat
  expert : Nat
  data : Nat
  deriving Repr, DecidableEq

inductive TopologyError where
  | worldSizeOverflow
  | rankOutOfRange (rank worldSize : Nat)
  | coordinateOutOfRange (axis : ParallelAxis) (coordinate size : Nat)
  | subgroupIdentity (axis : ParallelAxis)
  | zeroPartitions
  | partitionOutOfRange (index parts : Nat)
  | emptyPartition (total parts : Nat)
  | partitionOverflow
  deriving Repr, DecidableEq

/-- What `ParallelTopology::new` accepts. -/
structure ParallelTopology where
  tensor : Nat
  pipeline : Nat
  expert : Nat
  data : Nat
  positive : 0 ∉ [tensor, pipeline, expert, data]
  representable : [tensor, pipeline, expert, data].prod ≤ maximum

variable (c : ParallelCoordinates)

def ParallelCoordinates.get : ParallelAxis → Nat
  | .tensor => c.tensor
  | .pipeline => c.pipeline
  | .expert => c.expert
  | .data => c.data

def ParallelCoordinates.set (value : Nat) : ParallelAxis → ParallelCoordinates
  | .tensor => { c with tensor := value }
  | .pipeline => { c with pipeline := value }
  | .expert => { c with expert := value }
  | .data => { c with data := value }

namespace ParallelTopology

variable (t : ParallelTopology) {c d : ParallelCoordinates}

def size : ParallelAxis → Nat
  | .tensor => t.tensor
  | .pipeline => t.pipeline
  | .expert => t.expert
  | .data => t.data

def worldSize : Nat := t.tensor * t.pipeline * t.expert * t.data

/-- Converts a pipeline-major, tensor, expert-minor rank; data is the outermost dimension. -/
def coordinates (rank : Nat) : Except TopologyError ParallelCoordinates :=
  if t.worldSize ≤ rank then .error (.rankOutOfRange rank t.worldSize)
  else
    let expert := rank % t.expert
    let rank := rank / t.expert
    let tensor := rank % t.tensor
    let rank := rank / t.tensor
    let pipeline := rank % t.pipeline
    .ok ⟨tensor, pipeline, expert, rank / t.pipeline⟩

variable (c)

def checkCoordinate (axis : ParallelAxis) : Except TopologyError Unit :=
  if t.size axis ≤ c.get axis then .error (.coordinateOutOfRange axis (c.get axis) (t.size axis))
  else .ok ()

def appendDigit (number : Nat) (digit : Nat × Nat) : Option Nat := do
  checkedAdd (← checkedMul number digit.2) digit.1

def rankFor : Except TopologyError Nat := do
  [.tensor, .pipeline, .expert, .data].forM (t.checkCoordinate c)
  required .worldSizeOverflow
    ([(c.pipeline, t.pipeline), (c.tensor, t.tensor), (c.expert, t.expert)].foldlM appendDigit c.data)

variable {c}

def axisMembers (rank : Nat) (axis : ParallelAxis) : Except TopologyError (List Nat) := do
  let c ← t.coordinates rank
  (range (t.size axis)).mapM fun coordinate => t.rankFor (c.set coordinate axis)

variable (c)

def dimensions : List (ParallelAxis × Nat × Nat) :=
  [(.data, c.data, t.data), (.pipeline, c.pipeline, t.pipeline), (.tensor, c.tensor, t.tensor),
    (.expert, c.expert, t.expert)]

def subgroupColor (axis : ParallelAxis) : Except TopologyError Nat :=
  required .worldSizeOverflow
    ((((t.dimensions c).filter (·.1 ≠ axis)).map (·.2)).foldlM appendDigit 0)

end ParallelTopology

/-- One rank of a topology. The source keeps the sizes and the coordinates side by side. -/
structure ParallelRankTopology where
  topology : ParallelTopology
  globalRank : Nat
  coordinates : ParallelCoordinates
  resolved : topology.coordinates globalRank = .ok coordinates

structure SubgroupMembership where
  axis : ParallelAxis
  color : Nat
  rank : Nat
  size : Nat
  globalRanks : List Nat
  deriving Repr, DecidableEq

namespace ParallelRankTopology

/-- `ParallelRankTopology::new`. The sizes are validated once more, which changes nothing. -/
def new (topology : ParallelTopology) (globalRank : Nat) :
    Except TopologyError ParallelRankTopology :=
  match hr : topology.coordinates globalRank with
  | .error cause => .error cause
  | .ok coordinates => .ok ⟨topology, globalRank, coordinates, hr⟩

variable (r : ParallelRankTopology)

def subgroup (axis : ParallelAxis) : Except TopologyError SubgroupMembership := do
  let globalRanks ← r.topology.axisMembers r.globalRank axis
  let rank := r.coordinates.get axis
  let color ← r.topology.subgroupColor r.coordinates axis
  if globalRanks[rank]? ≠ some r.globalRank then .error (.subgroupIdentity axis)
  else .ok ⟨axis, color, rank, globalRanks.length, globalRanks⟩

def pipelinePredecessor : Except TopologyError (Option Nat) :=
  if r.coordinates.pipeline = 0 then .ok none
  else some <$> r.topology.rankFor { r.coordinates with pipeline := r.coordinates.pipeline - 1 }

def pipelineSuccessor : Except TopologyError (Option Nat) :=
  if r.coordinates.pipeline + 1 = r.topology.pipeline then .ok none
  else some <$> r.topology.rankFor { r.coordinates with pipeline := r.coordinates.pipeline + 1 }

end ParallelRankTopology

theorem foldlM_appendDigit {digits : List (Nat × Nat)} {start : Nat}
    (hd : ∀ digit ∈ digits, digit.1 < digit.2)
    (hs : (start + 1) * (digits.map (·.2)).prod ≤ maximum) :
    digits.foldlM ParallelTopology.appendDigit start =
      some (start * (digits.map (·.2)).prod + ravel (digits.map (·.2)) (digits.map (·.1))) := by
  induction digits generalizing start with
  | nil => simp [ravel]
  | cons digit digits ih =>
    obtain ⟨hf, hd⟩ := forall_mem_cons.mp hd
    have hr : 1 ≤ (digits.map (·.2)).prod := one_le_prod (by
      simpa using fun size first hl => one_le_of_lt (hd (first, size) hl))
    rw [map_cons, prod_cons, ← mul_assoc] at hs
    have hb : (start + 1) * digit.2 ≤ maximum := (Nat.le_mul_of_pos_right _ hr).trans hs
    have hn : start * digit.2 + digit.1 + 1 ≤ (start + 1) * digit.2 := by
      rw [succ_mul]
      omega
    have step : ParallelTopology.appendDigit start digit = some (start * digit.2 + digit.1) := by
      simp only [ParallelTopology.appendDigit, checkedMul]
      rw [if_pos (by omega)]
      exact if_pos (by omega)
    rw [foldlM_cons, step, Option.bind_eq_bind, Option.bind_some, ih hd
      ((mul_le_mul_right _ hn).trans hs)]
    simp only [map_cons, prod_cons, ravel]
    ring_nf

def ParallelCoordinates.digits (c : ParallelCoordinates) : List Nat :=
  [c.data, c.pipeline, c.tensor, c.expert]

theorem ParallelCoordinates.digits_inj {c d : ParallelCoordinates} (hs : c.digits = d.digits) :
    c = d := by
  cases c
  simp_all [digits]

namespace ParallelTopology

variable (t : ParallelTopology) {c d : ParallelCoordinates} {axis : ParallelAxis} {rank : Nat}

def shape : List Nat := [t.data, t.pipeline, t.tensor, t.expert]

def Contains (c : ParallelCoordinates) : Prop := ∀ axis, c.get axis < t.size axis

theorem prod_shape : t.shape.prod = t.worldSize := by
  simp only [shape, worldSize, prod_cons, prod_nil]
  ring

theorem worldSize_le : t.worldSize ≤ maximum := by
  refine le_trans (le_of_eq ?_) t.representable
  simp only [worldSize, prod_cons, prod_nil]
  ring

theorem size_pos (axis : ParallelAxis) : 0 < t.size axis := by
  have hp := t.positive
  simp only [mem_cons] at hp
  cases axis <;> simp only [size] <;> omega

theorem contains_iff : t.Contains c ↔ c.digits ∈ RowMajor.coordinates t.shape := by
  simp only [RowMajor.mem_coordinates, ParallelCoordinates.digits, shape, forall₂_cons,
    Forall₂.nil, and_true]
  constructor
  · intro hc
    exact ⟨hc .data, hc .pipeline, hc .tensor, hc .expert⟩
  · rintro ⟨hd, hp, ht, he⟩ (_ | _ | _ | _)
    · exact ht
    · exact hp
    · exact he
    · exact hd

variable {t}

theorem rankFor_eq (hc : t.Contains c) : t.rankFor c = .ok (ravel t.shape c.digits) := by
  have checked : [.tensor, .pipeline, .expert, .data].forM (t.checkCoordinate c) = .ok () := by
    simp [checkCoordinate, (hc _).not_ge, ok_bind]
  have hw := t.worldSize_le
  rw [← t.prod_shape] at hw
  have digits : [(c.pipeline, t.pipeline), (c.tensor, t.tensor), (c.expert, t.expert)].foldlM
      appendDigit c.data = _ :=
    foldlM_appendDigit (by simpa using ⟨hc .pipeline, hc .tensor, hc .expert⟩)
      ((mul_le_mul_right _ (hc .data)).trans hw)
  rw [rankFor, checked, ok_bind, digits]
  rfl

theorem rankFor_error (hc : ¬t.Contains c) :
    ∃ axis, t.rankFor c = .error (.coordinateOutOfRange axis (c.get axis) (t.size axis)) := by
  cases hf : [.tensor, .pipeline, .expert, .data].forM (t.checkCoordinate c) with
  | ok =>
    refine absurd (fun axis => ?_) hc
    have checked := forM_eq_ok.mp hf axis (by cases axis <;> simp)
    by_contra outside
    rw [checkCoordinate, if_pos (not_lt.mp outside)] at checked
    cases checked
  | error cause =>
    obtain ⟨axis, -, refused⟩ := exists_of_forM_error hf
    rw [checkCoordinate] at refused
    split at refused
    · cases refused
      exact ⟨axis, by rw [rankFor, hf]; rfl⟩
    · cases refused

theorem coordinates_eq (hr : rank < t.worldSize) :
    ∃ c, t.coordinates rank = .ok c ∧ c.digits = unravel t.shape rank := by
  have hd : rank / t.expert / t.tensor / t.pipeline < t.data := by
    refine Nat.div_lt_of_lt_mul (Nat.div_lt_of_lt_mul (Nat.div_lt_of_lt_mul (hr.trans_eq ?_)))
    rw [worldSize]
    ring
  refine ⟨_, if_neg hr.not_ge, ?_⟩
  show _ = [rank / t.expert / t.tensor / t.pipeline % t.data, _, _, _]
  rw [Nat.mod_eq_of_lt hd]
  rfl

theorem rank_lt_of_coordinates (hr : t.coordinates rank = .ok c) : rank < t.worldSize := by
  rw [coordinates] at hr
  split at hr
  · cases hr
  · next inside => exact not_le.mp inside

theorem coordinates_eq_ok_iff :
    t.coordinates rank = .ok c ↔ t.Contains c ∧ rank = ravel t.shape c.digits := by
  constructor
  · intro hr
    have inside := rank_lt_of_coordinates hr
    obtain ⟨d, hd, digits⟩ := coordinates_eq inside
    cases hr.symm.trans hd
    rw [← t.prod_shape] at inside
    obtain ⟨coords, hc, rfl⟩ := RowMajor.exists_ravel inside
    rw [RowMajor.unravel_ravel hc] at digits
    exact ⟨t.contains_iff.mpr (digits ▸ hc), by rw [digits]⟩
  · rintro ⟨hc, rfl⟩
    have hc := t.contains_iff.mp hc
    obtain ⟨d, hd, digits⟩ := coordinates_eq (t.prod_shape ▸ RowMajor.ravel_lt hc)
    rw [RowMajor.unravel_ravel hc] at digits
    rw [hd, ParallelCoordinates.digits_inj digits]

theorem rankFor_eq_ok_iff : t.rankFor c = .ok rank ↔ t.coordinates rank = .ok c := by
  rw [coordinates_eq_ok_iff]
  by_cases hc : t.Contains c
  · simp [rankFor_eq hc, hc, eq_comm]
  · obtain ⟨axis, refused⟩ := rankFor_error hc
    simp [refused, hc]

end ParallelTopology

namespace ParallelCoordinates

variable (c : ParallelCoordinates) (axis : ParallelAxis)

theorem set_get : c.set (c.get axis) axis = c := by
  cases axis <;> rfl

theorem set_set (first second : Nat) : (c.set first axis).set second axis = c.set second axis := by
  cases axis <;> rfl

theorem get_set (value : Nat) (other : ParallelAxis) :
    (c.set value axis).get other = if other = axis then value else c.get other := by
  cases axis <;> cases other <;> rfl

end ParallelCoordinates

namespace ParallelTopology

variable {t : ParallelTopology} {c d : ParallelCoordinates} {axis : ParallelAxis}

theorem Contains.set (hc : t.Contains c) {value : Nat} (hv : value < t.size axis) :
    t.Contains (c.set value axis) := by
  intro other
  rw [ParallelCoordinates.get_set]
  split
  · next same => exact same ▸ hv
  · exact hc other

variable (t axis) in
def line (c : ParallelCoordinates) : List Nat :=
  (range (t.size axis)).map fun value => ravel t.shape (c.set value axis).digits

theorem axisMembers_eq {rank : Nat} (hr : t.coordinates rank = .ok c) :
    t.axisMembers rank axis = .ok (t.line axis c) := by
  have hc := (coordinates_eq_ok_iff.mp hr).1
  rw [axisMembers, hr, ok_bind]
  exact mapM_eq_pure fun value hv => rankFor_eq (hc.set (mem_range.mp hv))

/-- Two cells lie on one line if they differ at most on its axis. -/
theorem mem_line_iff (hc : t.Contains c) (hd : t.Contains d) :
    ravel t.shape d.digits ∈ t.line axis c ↔ c.set 0 axis = d.set 0 axis := by
  rw [line, mem_map]
  constructor
  · rintro ⟨value, hv, same⟩
    have hs := hc.set (mem_range.mp hv)
    have hd := RowMajor.ravel_injective (t.contains_iff.mp hs) (t.contains_iff.mp hd) same
    rw [← ParallelCoordinates.digits_inj hd, ParallelCoordinates.set_set]
  · intro same
    refine ⟨d.get axis, mem_range.mpr (hd axis), ?_⟩
    rw [← c.set_set axis 0, same, d.set_set, d.set_get]

theorem line_congr (same : c.set 0 axis = d.set 0 axis) : t.line axis c = t.line axis d := by
  refine map_congr_left fun value _ => ?_
  rw [← c.set_set axis 0, same, d.set_set]

theorem nodup_line (hc : t.Contains c) : (t.line axis c).Nodup := by
  refine Nodup.map_on (fun first hf second hs same => ?_) nodup_range
  have hf := hc.set (mem_range.mp hf)
  have hs := hc.set (mem_range.mp hs)
  have digits := RowMajor.ravel_injective (t.contains_iff.mp hf) (t.contains_iff.mp hs) same
  have values := congrArg (·.get axis) (ParallelCoordinates.digits_inj digits)
  simpa only [ParallelCoordinates.get_set, if_true] using values

variable (t axis) in
def colorDigits (c : ParallelCoordinates) : List (Nat × Nat) :=
  ((t.dimensions c).filter (·.1 ≠ axis)).map (·.2)

theorem subgroupColor_eq (hc : t.Contains c) :
    t.subgroupColor c axis = .ok (ravel ((t.colorDigits axis c).map (·.2))
      ((t.colorDigits axis c).map (·.1))) := by
  have small : ∀ digit ∈ t.colorDigits axis c, digit.1 < digit.2 := by
    have := hc .data
    have := hc .pipeline
    have := hc .tensor
    have := hc .expert
    cases axis <;> simpa [colorDigits, dimensions] using ⟨‹_›, ‹_›, ‹_›⟩
  have bounded : (0 + 1) * ((t.colorDigits axis c).map (·.2)).prod ≤ maximum := by
    refine le_trans ?_ t.worldSize_le
    refine (Nat.le_mul_of_pos_right _ (t.size_pos axis)).trans (le_of_eq ?_)
    cases axis <;> simp [colorDigits, dimensions, size, worldSize, -mul_eq_mul_right_iff] <;> ring
  rw [subgroupColor, show ((t.dimensions c).filter (·.1 ≠ axis)).map (·.2) = t.colorDigits axis c from rfl,
    foldlM_appendDigit small bounded, zero_mul, zero_add]
  rfl

theorem subgroupColor_eq_iff (hc : t.Contains c) (hd : t.Contains d) :
    t.subgroupColor c axis = t.subgroupColor d axis ↔ c.set 0 axis = d.set 0 axis := by
  have sizes : (t.colorDigits axis c).map (·.2) = (t.colorDigits axis d).map (·.2) := by
    cases axis <;> rfl
  have inside : ∀ {c : ParallelCoordinates}, t.Contains c → (t.colorDigits axis c).map (·.1) ∈
      RowMajor.coordinates ((t.colorDigits axis c).map (·.2)) := fun hc => by
    rw [RowMajor.mem_coordinates]
    have := hc .data
    have := hc .pipeline
    have := hc .tensor
    have := hc .expert
    cases axis <;> simpa [colorDigits, dimensions] using ⟨‹_›, ‹_›, ‹_›⟩
  have digits : (t.colorDigits axis c).map (·.1) = (t.colorDigits axis d).map (·.1) ↔
      c.set 0 axis = d.set 0 axis := by
    cases axis <;> simp [colorDigits, dimensions, ParallelCoordinates.set] <;> tauto
  rw [subgroupColor_eq hc, subgroupColor_eq hd, ok.injEq, ← digits, sizes]
  exact ⟨RowMajor.ravel_injective (sizes ▸ inside hc) (inside hd), fun same => same ▸ rfl⟩

end ParallelTopology

namespace ParallelRankTopology

variable (r s : ParallelRankTopology)

theorem new_eq {t : ParallelTopology} {rank : Nat} {c : ParallelCoordinates}
    (hc : t.coordinates rank = .ok c) : new t rank = .ok ⟨t, rank, c, hc⟩ := by
  unfold new
  split
  · next refused =>
    rw [hc] at refused
    cases refused
  · next d found =>
    rw [hc] at found
    cases found
    rfl

theorem contains : r.topology.Contains r.coordinates :=
  (ParallelTopology.coordinates_eq_ok_iff.mp r.resolved).1

theorem globalRank_eq : r.globalRank = ravel r.topology.shape r.coordinates.digits :=
  (ParallelTopology.coordinates_eq_ok_iff.mp r.resolved).2

theorem getElem?_line (axis : ParallelAxis) :
    (r.topology.line axis r.coordinates)[r.coordinates.get axis]? = some r.globalRank := by
  rw [ParallelTopology.line, getElem?_map, getElem?_range (r.contains axis),
    Option.map_some, ParallelCoordinates.set_get, globalRank_eq]

theorem subgroup_eq (axis : ParallelAxis) :
    ∃ color, r.topology.subgroupColor r.coordinates axis = .ok color ∧
      r.subgroup axis = .ok ⟨axis, color, r.coordinates.get axis, r.topology.size axis,
        r.topology.line axis r.coordinates⟩ := by
  have colored : r.topology.subgroupColor r.coordinates axis = _ :=
    ParallelTopology.subgroupColor_eq r.contains
  refine ⟨_, colored, ?_⟩
  rw [subgroup, ParallelTopology.axisMembers_eq r.resolved, ok_bind]
  rw [colored, ok_bind, if_neg (not_not.mpr (r.getElem?_line axis)),
    ParallelTopology.line, length_map, length_range]

variable {r s}

theorem map_some_eq_ok {ε α : Type} {result : Except ε α} {value : α} :
    some <$> result = .ok (some value) ↔ result = .ok value := by
  cases result <;> simp [Functor.map, Except.map]

theorem neighbour_iff (hs : r.topology = s.topology) (c : ParallelCoordinates) :
    some <$> r.topology.rankFor c = .ok (some s.globalRank) ↔ s.coordinates = c := by
  rw [map_some_eq_ok, ParallelTopology.rankFor_eq_ok_iff, hs, s.resolved, ok.injEq]

theorem pipelineSuccessor_eq_iff (hs : r.topology = s.topology) :
    r.pipelineSuccessor = .ok (some s.globalRank) ↔
      s.coordinates = { r.coordinates with pipeline := r.coordinates.pipeline + 1 } := by
  rw [pipelineSuccessor]
  split
  · next last =>
    constructor
    · intro absent
      cases absent
    · intro moved
      have inside : s.coordinates.pipeline < s.topology.pipeline := s.contains .pipeline
      rw [moved, ← hs, ← last] at inside
      exact absurd inside (lt_irrefl _)
  · exact neighbour_iff hs _

theorem pipelinePredecessor_eq_iff (hs : s.topology = r.topology) :
    s.pipelinePredecessor = .ok (some r.globalRank) ↔ s.coordinates.pipeline ≠ 0 ∧
      r.coordinates = { s.coordinates with pipeline := s.coordinates.pipeline - 1 } := by
  rw [pipelinePredecessor]
  split
  · next first => simp [first]
  · next behind => simp only [ne_eq, behind, not_false_eq_true, true_and, neighbour_iff hs]

/-- A move along the pipeline that stays in the box has a rank. -/
theorem neighbour_ok {value : Nat} (hv : value < r.topology.pipeline) :
    ∃ next, some <$> r.topology.rankFor { r.coordinates with pipeline := value } = .ok next := by
  have inside : r.topology.Contains (r.coordinates.set value .pipeline) := r.contains.set hv
  exact ⟨_, map_some_eq_ok.mpr (ParallelTopology.rankFor_eq inside)⟩

theorem exists_pipelineSuccessor (r : ParallelRankTopology) :
    ∃ next, r.pipelineSuccessor = .ok next := by
  rw [pipelineSuccessor]
  split
  · exact ⟨_, rfl⟩
  have inside : r.coordinates.pipeline < r.topology.pipeline := r.contains .pipeline
  exact neighbour_ok (by omega)

theorem exists_pipelinePredecessor (r : ParallelRankTopology) :
    ∃ next, r.pipelinePredecessor = .ok next := by
  rw [pipelinePredecessor]
  split
  · exact ⟨_, rfl⟩
  have inside : r.coordinates.pipeline < r.topology.pipeline := r.contains .pipeline
  exact neighbour_ok (by omega)

theorem successor_iff_predecessor (hs : r.topology = s.topology) :
    r.pipelineSuccessor = .ok (some s.globalRank) ↔
      s.pipelinePredecessor = .ok (some r.globalRank) := by
  rw [pipelineSuccessor_eq_iff hs, pipelinePredecessor_eq_iff hs.symm]
  constructor
  · intro moved
    simp [moved]
  · rintro ⟨behind, moved⟩
    rw [moved]
    simp [Nat.sub_add_cancel (pos_of_ne_zero behind)]

theorem subgroup_partition (axis : ParallelAxis) (hs : r.topology = s.topology) :
    ∃ m n, r.subgroup axis = .ok m ∧ s.subgroup axis = .ok n ∧
      m.size = r.topology.size axis ∧ m.globalRanks.length = m.size ∧ m.globalRanks.Nodup ∧
      (∀ rank ∈ m.globalRanks, rank < r.topology.worldSize) ∧
      m.globalRanks[m.rank]? = some r.globalRank ∧
      (s.globalRank ∈ m.globalRanks ↔ m.globalRanks = n.globalRanks) ∧
      (s.globalRank ∈ m.globalRanks ↔ m.color = n.color) := by
  obtain ⟨first, hf, hm⟩ := r.subgroup_eq axis
  obtain ⟨second, hn, hk⟩ := s.subgroup_eq axis
  have inside : r.topology.Contains s.coordinates := hs ▸ s.contains
  have listed : s.globalRank ∈ r.topology.line axis r.coordinates ↔
      r.coordinates.set 0 axis = s.coordinates.set 0 axis := by
    rw [s.globalRank_eq, ← hs]
    exact ParallelTopology.mem_line_iff r.contains inside
  refine ⟨_, _, hm, hk, rfl, by simp [ParallelTopology.line], ParallelTopology.nodup_line r.contains,
    ?_, r.getElem?_line axis, ⟨fun hl => ?_, fun same => ?_⟩, ?_⟩
  · intro rank hl
    obtain ⟨value, hv, rfl⟩ := mem_map.mp hl
    rw [← r.topology.prod_shape]
    exact RowMajor.ravel_lt (r.topology.contains_iff.mp (r.contains.set (mem_range.mp hv)))
  · rw [ParallelTopology.line_congr (listed.mp hl), hs]
  · rw [same]
    exact mem_of_getElem? (s.getElem?_line axis)
  · rw [listed, ← ParallelTopology.subgroupColor_eq_iff r.contains inside, hf, hs, hn, ok.injEq]

end ParallelRankTopology

/-- Ranks and coordinates correspond, the subgroups of an axis partition the ranks and are told apart
by their colors, and the neighbours along the pipeline are mutual. -/
theorem topology_cartesian (t : ParallelTopology) :
    (∀ rank c, t.coordinates rank = .ok c ↔ t.Contains c ∧ t.rankFor c = .ok rank) ∧
    (∀ rank, rank < t.worldSize ↔ ∃ r, ParallelRankTopology.new t rank = .ok r ∧ r.topology = t ∧
      r.globalRank = rank) ∧ (∀ c, t.Contains c ↔ ∃ rank, t.rankFor c = .ok rank) ∧
    (∀ c, t.rankFor c ≠ .error .worldSizeOverflow) ∧
    (∀ axis (r s : ParallelRankTopology), r.topology = t → s.topology = t →
      ∃ m n, r.subgroup axis = .ok m ∧ s.subgroup axis = .ok n ∧
        m.size = t.size axis ∧ m.globalRanks.length = m.size ∧ m.globalRanks.Nodup ∧
        (∀ rank ∈ m.globalRanks, rank < t.worldSize) ∧ m.globalRanks[m.rank]? = some r.globalRank ∧
        (s.globalRank ∈ m.globalRanks ↔ m.globalRanks = n.globalRanks) ∧
        (s.globalRank ∈ m.globalRanks ↔ m.color = n.color)) ∧
    ∀ r s : ParallelRankTopology, r.topology = t → s.topology = t →
      (∃ next, r.pipelineSuccessor = .ok next) ∧ (∃ next, s.pipelinePredecessor = .ok next) ∧
      (r.pipelineSuccessor = .ok (some s.globalRank) ↔
        s.pipelinePredecessor = .ok (some r.globalRank)) := by
  refine ⟨fun rank c => ?_, fun rank => ⟨fun hr => ?_, ?_⟩, fun c => ?_, fun c overflow => ?_, ?_, ?_⟩
  · rw [ParallelTopology.rankFor_eq_ok_iff]
    exact ⟨fun hr => ⟨(ParallelTopology.coordinates_eq_ok_iff.mp hr).1, hr⟩, And.right⟩
  · obtain ⟨c, hc, -⟩ := ParallelTopology.coordinates_eq hr
    exact ⟨_, ParallelRankTopology.new_eq hc, rfl, rfl⟩
  · rintro ⟨r, -, rfl, rfl⟩
    exact ParallelTopology.rank_lt_of_coordinates r.resolved
  · constructor
    · exact fun hc => ⟨_, ParallelTopology.rankFor_eq hc⟩
    · rintro ⟨rank, hr⟩
      exact (ParallelTopology.coordinates_eq_ok_iff.mp (ParallelTopology.rankFor_eq_ok_iff.mp hr)).1
  · by_cases hc : t.Contains c
    · rw [ParallelTopology.rankFor_eq hc] at overflow
      cases overflow
    · obtain ⟨axis, refused⟩ := ParallelTopology.rankFor_error hc
      rw [refused] at overflow
      cases overflow
  · rintro axis r s rfl hs
    exact ParallelRankTopology.subgroup_partition axis hs.symm
  · rintro r s rfl hs
    exact ⟨r.exists_pipelineSuccessor, s.exists_pipelinePredecessor,
      ParallelRankTopology.successor_iff_predecessor hs.symm⟩

end Eredu.Topology
