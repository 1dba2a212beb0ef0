import Mathlib.Analysis.SpecialFunctions.Log.Basic
import Eredu.Attention.Blockwise

/-!
# Blockwise attention is attention

What a scan over blocks computes is the weighted mean over exactly the keys that a
query sees. `Accumulator.Sees` says which keys these are by their positions in the
context alone, and `attention` is that mean over a flat list of entries, so neither
the block boundaries nor the score of masked keys appear in it. The invariant
`Accumulator.Accounts` says what the running numbers stand for after some entries.
-/

namespace Eredu.Attention

open List Accumulator
open Softmax (Exponential Key Row mass moment)

section

variable {K : Type} [Field K] [LinearOrder K]

/-- One cached position as the queries of an accumulator see it. -/
structure Entry (K : Type) where
  position : Int
  visible : Nat → Nat → Nat → Bool
  score : Nat → Nat → Nat → K
  value : Nat → Nat → Nat → K

variable (kernel : Kernel K) (accumulator : Accumulator K) (block : Block K)

/-- A query sees no later position, with a window only those in the window and in the pinned prefix,
and of these the ones that the caller's mask lets through. -/
def Accumulator.Sees (batch head query : Nat) (position : Int) : Prop :=
  (accumulator.causal → position ≤ accumulator.queryStart + query ∧
    ∀ window ∈ accumulator.slidingWindow, position < accumulator.prefixTokens ∨
      accumulator.queryStart + query < position + window) ∧
  ∀ mask ∈ accumulator.explicitMask,
    mask.allows batch head query (position - accumulator.maskOrigin).toNat

instance (batch head query : Nat) (position : Int) :
    Decidable (accumulator.Sees batch head query position) := by
  unfold Accumulator.Sees
  infer_instance

omit [Field K] [LinearOrder K] in
theorem absoluteAttentionMask_iff (window : Option Int) (prefixTokens query key : Int) :
    absoluteAttentionMask window prefixTokens query key = true ↔
      key ≤ query ∧ ∀ size ∈ window, key < prefixTokens ∨ query < key + size := by
  cases window with
  | none => simp [absoluteAttentionMask]
  | some size =>
    simp only [absoluteAttentionMask, Bool.and_eq_true, Bool.or_eq_true, decide_eq_true_eq,
      Option.mem_some_iff, forall_eq']
    omega

omit [Field K] [LinearOrder K] in
/-- The mask of a block lets through the keys that a query sees. -/
theorem Accumulator.effectiveMask_eq (batch head query key : Nat) :
    accumulator.effectiveMask block batch head query key =
      decide (accumulator.Sees batch head query (block.start + key)) := by
  have relative : block.start - accumulator.maskOrigin + (key : Int) =
      block.start + key - accumulator.maskOrigin := by omega
  have allowed := absoluteAttentionMask_iff accumulator.slidingWindow accumulator.prefixTokens
    (accumulator.queryStart + query) (block.start + key)
  rw [Bool.eq_iff_iff, decide_eq_true_eq, Sees, ← allowed, effectiveMask, relative]
  cases accumulator.causal <;> cases accumulator.explicitMask <;> simp

def Accumulator.entryAt (key : Nat) : Entry K where
  position := block.start + key
  visible batch head query := decide (accumulator.Sees batch head query (block.start + key))
  score batch head query := accumulator.biasedScore kernel block batch head query key
  value batch head component :=
    block.values.get batch (accumulator.groupedHead block head) key component

def Accumulator.entries : List (Entry K) :=
  (range block.keys.length).map (accumulator.entryAt kernel block)

variable (entries : List (Entry K)) (batch head query component : Nat)

def seen : List (Key K) :=
  (entries.filter fun entry => entry.visible batch head query).map fun entry =>
    ⟨entry.score batch head query, entry.value batch head component⟩

def Accumulator.sinkMass (head : Nat) : K :=
  match accumulator.sinks with
  | none => 0
  | some sinks => kernel.exponential.exp (sinks.getD head 0)

/-- Ordinary attention: the mean of the values that a query sees, weighted by the exponentials of
their scores, with the sink in the normalization only. -/
def Accumulator.attention : K :=
  let keys := seen entries batch head query component
  if keys = [] ∧ accumulator.sinks = none then 0
  else moment kernel.exponential keys /
    (mass kernel.exponential keys + accumulator.sinkMass kernel head)

/-- Whether a position is read at all. -/
def Accumulator.retains (position : Int) : Bool :=
  match accumulator.retainedStart with
  | none => true
  | some start => decide (position < accumulator.prefixTokens) || decide (start ≤ position)

omit [Field K] [LinearOrder K] in
theorem seen_append (first second : List (Entry K)) (batch head query component : Nat) :
    seen (first ++ second) batch head query component =
      seen first batch head query component ++ seen second batch head query component := by
  simp [seen]

theorem filter_range_eq (predicate : Nat → Bool) {size front rest : Nat} (ordered : front ≤ rest)
    (hi : rest ≤ size)
    (hh : ∀ index, index < size → (predicate index = true ↔ index < front ∨ rest ≤ index)) :
    (range size).filter predicate = range' 0 front ++ range' rest (size - rest) := by
  have hsp : range size =
      range' 0 front ++ (range' front (rest - front) ++ range' rest (size - rest)) := by
    have hs := @range'_append_1 front (rest - front) (size - rest)
    have hf := @range'_append_1 0 front (size - front)
    rw [show front + (rest - front) = rest by omega,
      show rest - front + (size - rest) = size - front by omega] at hs
    rw [hs, zero_add] at *
    rw [range_eq_range', hf, Nat.add_sub_cancel' (ordered.trans hi)]
  rw [hsp, filter_append, filter_append]
  have hk : (range' 0 front).filter predicate = range' 0 front := by
    rw [filter_eq_self]
    intro index listed
    rw [mem_range'_1] at listed
    exact (hh index (by omega)).mpr (by omega)
  have hd : (range' front (rest - front)).filter predicate = [] := by
    rw [filter_eq_nil_iff]
    intro index listed
    rw [mem_range'_1] at listed
    rw [hh index (by omega)]
    omega
  have ht : (range' rest (size - rest)).filter predicate = range' rest (size - rest) := by
    rw [filter_eq_self]
    intro index listed
    rw [mem_range'_1] at listed
    exact (hh index (by omega)).mpr (by omega)
  rw [hk, hd, ht, nil_append]

section Part

variable (kernel : Kernel K) (accumulator : Accumulator K) (block : Block K) (start stop : Int)
  (ordered : block.start ≤ start ∧ start < stop) (batch head query key : Nat)

theorem Accumulator.biasedScore_part :
    accumulator.biasedScore kernel (block.part start stop ordered) batch head query key =
      accumulator.biasedScore kernel block batch head query ((start - block.start).toNat + key) := by
  have hr : start - accumulator.maskOrigin + (key : Int) =
      block.start - accumulator.maskOrigin + (((start - block.start).toNat + key : Nat) : Int) := by
    omega
  have hs : accumulator.blockScore kernel (block.part start stop ordered) batch head query key =
      accumulator.blockScore kernel block batch head query ((start - block.start).toNat + key) := by
    unfold blockScore
    cases hb : block.bias <;> simp only [Block.part, hb] <;> rfl
  unfold biasedScore
  rw [hs]
  simp only [Block.part, hr]

theorem Accumulator.entries_part : accumulator.entries kernel (block.part start stop ordered) =
      (range' (start - block.start).toNat
        ((stop - block.start).toNat - (start - block.start).toNat)).map
          (accumulator.entryAt kernel block) := by
  rw [range'_eq_map_range, map_map]
  apply map_congr_left
  intro key _
  have hp : start + (key : Int) = block.start + (((start - block.start).toNat + key : Nat) : Int) := by
    omega
  simp only [entryAt, biasedScore_part]
  simp only [Block.part, hp]
  rfl

end Part

theorem Accumulator.entries_parts (kernel : Kernel K) (accumulator : Accumulator K)
    (block : Block K) : (accumulator.parts block).flatMap (accumulator.entries kernel) =
      (accumulator.entries kernel block).filter fun entry => accumulator.retains entry.position := by
  unfold parts retains
  cases accumulator.retainedStart with
  | none => simp
  | some start =>
    dsimp only
    have hc := block.covers
    generalize hf : min (min block.stop accumulator.prefixTokens) start = frontEnd
    generalize hr : max block.start start = restStart
    have hfr : (if ordered : block.start ≤ block.start ∧ block.start < frontEnd then
          [block.part block.start frontEnd ordered] else []).flatMap (accumulator.entries kernel) =
        (range' 0 (frontEnd - block.start).toNat).map (accumulator.entryAt kernel block) := by
      split
      · rw [flatMap_singleton, entries_part, Int.sub_self]
        rfl
      · have hn : (frontEnd - block.start).toNat = 0 := by omega
        rw [hn]
        rfl
    have hre : (if ordered : block.start ≤ restStart ∧ restStart < block.stop then
          [block.part restStart block.stop ordered] else []).flatMap (accumulator.entries kernel) =
        (range' (min (restStart - block.start).toNat block.keys.length)
          (block.keys.length - min (restStart - block.start).toNat block.keys.length)).map
            (accumulator.entryAt kernel block) := by
      split
      · have hi : min (restStart - block.start).toNat block.keys.length =
            (restStart - block.start).toNat := by omega
        have hs : (block.stop - block.start).toNat = block.keys.length := by omega
        rw [flatMap_singleton, entries_part, hi, hs]
      · have hn : block.keys.length - min (restStart - block.start).toNat block.keys.length = 0 := by
          omega
        rw [hn]
        rfl
    have hk : (range block.keys.length).filter (fun key : Nat =>
          decide (block.start + (key : Int) < accumulator.prefixTokens) ||
            decide (start ≤ block.start + (key : Int))) =
        range' 0 (frontEnd - block.start).toNat ++
          range' (min (restStart - block.start).toNat block.keys.length)
            (block.keys.length - min (restStart - block.start).toNat block.keys.length) := by
      apply filter_range_eq
      · omega
      · omega
      · intro index hb
        simp only [Bool.or_eq_true, decide_eq_true_eq]
        omega
    rw [flatMap_append, hfr, hre, ← map_append, ← hk, entries, filter_map]
    rfl

def Accumulator.settings (accumulator : Accumulator K) : Accumulator K :=
  { accumulator with runningMax := none, runningSum := none, accumulator := none }

/-- After some entries, every row holds the mass and the moment of what its query sees, and the mass
of the sink. -/
structure Accumulator.Accounts (kernel : Kernel K) (width : Nat) (initial : Accumulator K)
    (entries : List (Entry K)) (accumulator : Accumulator K) : Prop where
  settings : accumulator.settings = initial.settings
  rows : ∃ maximum sum total, accumulator.runningMax = some maximum ∧
    accumulator.runningSum = some sum ∧ accumulator.accumulator = some total ∧
    (total.batch = initial.queries.batch ∧ total.heads = initial.queries.heads ∧
      total.length = initial.queries.length ∧ total.width = width) ∧
    ∀ batch head query component,
      Row.Holds kernel.exponential
        ⟨maximum batch head query, sum batch head query, total.get batch head query component⟩
        (mass kernel.exponential (seen entries batch head query component) +
          initial.sinkMass kernel head)
        (moment kernel.exponential (seen entries batch head query component))

/-- The shapes of a block fit the accumulator, its values have the common width and the mask covers
what is read of it. -/
structure Accumulator.Fits (accumulator : Accumulator K) (width : Nat) (block : Block K) : Prop where
  checked : accumulator.checkBlock block = .ok ()
  width : block.values.width = width

theorem Accumulator.holds_block (kernel : Kernel K) (accumulator : Accumulator K) (block : Block K)
    (batch head query component : Nat) : Row.Holds kernel.exponential
      ⟨accumulator.blockMax kernel block batch head query,
        accumulator.blockSum kernel block batch head query,
        (accumulator.blockAccumulator kernel block).get batch head query component⟩
      (mass kernel.exponential (seen (accumulator.entries kernel block) batch head query component))
      (moment kernel.exponential
        (seen (accumulator.entries kernel block) batch head query component)) := by
  have row := Row.holds_over kernel.exponential (accumulator.blockMax kernel block batch head query)
    (accumulator.effectiveMask block batch head query)
    (fun key => ⟨accumulator.maskedScore kernel block batch head query key,
      block.values.get batch (accumulator.groupedHead block head) key component⟩)
    (range block.keys.length)
  -- Where the mask lets a key through, its score is not the masked one.
  have hk : seen (accumulator.entries kernel block) batch head query component =
      ((range block.keys.length).filter
        (accumulator.effectiveMask block batch head query)).map fun key =>
          ⟨accumulator.maskedScore kernel block batch head query key,
            block.values.get batch (accumulator.groupedHead block head) key component⟩ := by
    unfold seen entries
    have visible : (fun entry : Entry K => entry.visible batch head query) ∘
        accumulator.entryAt kernel block = accumulator.effectiveMask block batch head query :=
      funext fun key => (accumulator.effectiveMask_eq block batch head query key).symm
    rw [filter_map, map_map, visible]
    apply map_congr_left
    intro key listed
    simp only [Function.comp_apply, entryAt, maskedScore, if_pos (mem_filter.mp listed).2]
  rw [hk]
  exact row

variable {entries : List (Entry K)} {blocks : List (Block K)}

section Steps

variable {kernel : Kernel K} {initial accumulator : Accumulator K} {width : Nat} {block : Block K}

theorem Accumulator.sinkMass_none (hn : accumulator.sinks = none) (head : Nat) :
    accumulator.sinkMass kernel head = 0 := by
  unfold sinkMass
  rw [hn]

theorem Accumulator.start_accounts (kernel : Kernel K) (hw : block.values.width = width)
    (sinks : ∀ listed, accumulator.sinks = some listed → listed.length = accumulator.queries.heads) :
    ∃ next, accumulator.start kernel block = .ok next ∧
      Accounts kernel width accumulator (accumulator.entries kernel block) next := by
  have hh := accumulator.holds_block kernel block
  unfold start
  split
  · next hp =>
    refine ⟨_, rfl, rfl, _, _, _, rfl, rfl, rfl, ⟨rfl, rfl, rfl, hw⟩, ?_⟩
    intro batch head query component
    rw [sinkMass_none hp, add_zero]
    exact hh batch head query component
  · next listed hp =>
    rw [if_neg (not_not.mpr (sinks listed hp))]
    refine ⟨_, rfl, rfl, _, _, _, rfl, rfl, rfl, ⟨rfl, rfl, rfl, hw⟩, ?_⟩
    intro batch head query component
    have hs := Row.holds_weightOnly kernel.exponential
      (max (listed.getD head 0) (accumulator.blockMax kernel block batch head query))
      (listed.getD head 0)
    have hb := hs.add ((hh batch head query component).rebase _) rfl
    rw [zero_add, add_comm] at hb
    have hm : accumulator.sinkMass kernel head = kernel.exponential.exp (listed.getD head 0) := by
      unfold sinkMass
      rw [hp]
    rw [hm]
    simpa only [Row.add, Row.weightOnly, Row.rebase, zero_add] using hb

theorem Accumulator.Accounts.extend (ha : Accounts kernel width initial entries accumulator)
    (hw : block.values.width = width) {maximum sum : Nat → Nat → Nat → K} {total : Tensor K}
    (hr : accumulator.runningMax = some maximum ∧ accumulator.runningSum = some sum ∧
      accumulator.accumulator = some total) :
    ∃ next, accumulator.extend kernel block maximum sum total = .ok next ∧
      Accounts kernel width initial (entries ++ accumulator.entries kernel block) next := by
  obtain ⟨oldMax, oldSum, old, hsa, hsm, hs, hsh, hro⟩ := ha.rows
  obtain rfl := Option.some.inj (hsa.symm.trans hr.1)
  obtain rfl := Option.some.inj (hsm.symm.trans hr.2.1)
  obtain rfl := Option.some.inj (hs.symm.trans hr.2.2)
  have hse : ¬ (accumulator.blockAccumulator kernel block).width ≠ old.width := by
    rw [hsh.2.2.2]
    exact not_not.mpr hw
  unfold Accumulator.extend
  dsimp only
  rw [if_neg hse]
  refine ⟨_, rfl, ha.settings, _, _, _, rfl, rfl, rfl, hsh, ?_⟩
  intro batch head query component
  have hb := (hro batch head query component).rebase
    (max (oldMax batch head query) (accumulator.blockMax kernel block batch head query))
  have new := (accumulator.holds_block kernel block batch head query component).rebase
    (max (oldMax batch head query) (accumulator.blockMax kernel block batch head query))
  have hbo := hb.add new rfl
  rw [seen_append, Softmax.mass_append, Softmax.moment_append, add_right_comm]
  exact hbo

/-- Nothing has been read yet, or the running numbers account for what was read. -/
def Accumulator.Accounted (kernel : Kernel K) (width : Nat) (initial : Accumulator K)
    (entries : List (Entry K)) (accumulator : Accumulator K) : Prop :=
  (entries = [] ∧ accumulator = initial) ∨
    (entries ≠ [] ∧ Accounts kernel width initial entries accumulator)

theorem Accumulator.Accounted.settings (ha : Accounted kernel width initial entries accumulator) :
    accumulator.settings = initial.settings := by
  rcases ha with ⟨-, rfl⟩ | ⟨-, hac⟩
  · rfl
  · exact hac.settings

/-- Entries, parts and checks depend on the settings only. -/
theorem Accumulator.entries_congr (hs : accumulator.settings = initial.settings) :
    accumulator.entries kernel block = initial.entries kernel block := by
  show accumulator.settings.entries kernel block = initial.settings.entries kernel block
  rw [hs]

theorem Accumulator.entries_ne_nil (kernel : Kernel K) (hc : accumulator.checkBlock block = .ok ()) :
    accumulator.entries kernel block ≠ [] := by
  have hp : block.keys.length ≠ 0 := by
    intro he
    unfold checkBlock at hc
    split_ifs at hc
  simpa [entries] using hp

variable (fresh : initial.runningMax = none ∧ initial.runningSum = none ∧ initial.accumulator = none)
  (sinks : ∀ listed, initial.sinks = some listed → listed.length = initial.queries.heads)

include fresh sinks

theorem Accumulator.Accounted.step (hac : Accounted kernel width initial entries accumulator)
    (hf : initial.Fits width block) :
    ∃ next, accumulator.accumulateVisible kernel block = .ok next ∧
      Accounted kernel width initial (entries ++ initial.entries kernel block) next := by
  have hse := hac.settings
  have hc : accumulator.checkBlock block = .ok () := by
    show accumulator.settings.checkBlock block = .ok ()
    rw [hse]
    exact hf.checked
  have hn := entries_ne_nil kernel hf.checked
  unfold accumulateVisible
  rw [hc]
  rcases hac with ⟨rfl, rfl⟩ | ⟨_, ha⟩
  · obtain ⟨next, run, ha⟩ := start_accounts kernel hf.width sinks
    refine ⟨next, ?_, .inr ⟨hn, ha⟩⟩
    rw [fresh.1, fresh.2.1, fresh.2.2]
    exact run
  · obtain ⟨maximum, sum, total, hsa, hsm, hs, _⟩ := ha.rows
    obtain ⟨next, run, haf⟩ := ha.extend hf.width ⟨hsa, hsm, hs⟩
    rw [entries_congr hse] at haf
    refine ⟨next, ?_, .inr ⟨fun he => hn (append_eq_nil_iff.mp he).2, haf⟩⟩
    rw [hsa, hsm, hs]
    exact run

section

variable (ha : Accounted kernel width initial entries accumulator)
include ha

theorem Accumulator.Accounted.steps
    {parts : List (Block K)} (hfs : ∀ part ∈ parts, initial.Fits width part) :
    ∃ next, parts.foldlM (fun accumulator part => accumulator.accumulateVisible kernel part)
        accumulator = .ok next ∧
      Accounted kernel width initial (entries ++ parts.flatMap (initial.entries kernel)) next := by
  induction parts generalizing accumulator entries with
  | nil =>
    rw [flatMap_nil, append_nil]
    exact ⟨accumulator, rfl, ha⟩
  | cons part parts ih =>
    obtain ⟨hfi, ho⟩ := forall_mem_cons.mp hfs
    obtain ⟨middle, run, haf⟩ := ha.step fresh sinks hfi
    obtain ⟨next, hr, hf⟩ := ih haf ho
    rw [append_assoc] at hf
    refine ⟨next, ?_, hf⟩
    rw [foldlM_cons, run]
    exact hr

theorem Accumulator.Accounted.scan
    (hfs : ∀ block ∈ blocks, ∀ part ∈ initial.parts block, initial.Fits width part) :
    ∃ next, blocks.foldlM (fun accumulator block => accumulator.accumulateWithBias kernel block)
        accumulator = .ok next ∧ Accounted kernel width initial
        (entries ++ blocks.flatMap fun block =>
          (initial.parts block).flatMap (initial.entries kernel)) next := by
  induction blocks generalizing accumulator entries with
  | nil =>
    rw [flatMap_nil, append_nil]
    exact ⟨accumulator, rfl, ha⟩
  | cons block blocks ih =>
    obtain ⟨hfi, ho⟩ := forall_mem_cons.mp hfs
    have hp : accumulator.parts block = initial.parts block := by
      show accumulator.settings.parts block = initial.settings.parts block
      rw [ha.settings]
    obtain ⟨middle, run, haf⟩ := ha.steps fresh sinks hfi
    obtain ⟨next, hr, hf⟩ := ih haf ho
    rw [append_assoc] at hf
    refine ⟨next, ?_, hf⟩
    rw [foldlM_cons, accumulateWithBias, hp, run]
    exact hr

end

end Steps

variable (kernel : Kernel K) (accumulator : Accumulator K)

def Accumulator.context (blocks : List (Block K)) : List (Entry K) :=
  (blocks.flatMap (accumulator.entries kernel)).filter fun entry => accumulator.retains entry.position

def Accumulator.attended (width : Nat) (entries : List (Entry K)) : Tensor K where
  batch := accumulator.queries.batch
  heads := accumulator.queries.heads
  length := accumulator.queries.length
  width := width
  get := accumulator.attention kernel entries

def Consecutive (whole : Block K) : Int → List (Block K) → Prop
  | position, [] => position = whole.stop
  | position, block :: blocks => ∃ stop, ∃ ordered : whole.start ≤ position ∧ position < stop,
      stop ≤ whole.stop ∧ block = whole.part position stop ordered ∧ Consecutive whole stop blocks

theorem Accumulator.context_eq (blocks : List (Block K)) :
    (blocks.flatMap fun block => (accumulator.parts block).flatMap (accumulator.entries kernel)) =
      accumulator.context kernel blocks := by
  unfold context
  rw [filter_flatMap]
  apply flatMap_congr
  intro block _
  exact accumulator.entries_parts kernel block

/-- However an array is cut into blocks, the blocks have the entries of the array. -/
theorem Consecutive.entries_eq {whole : Block K} {position : Int}
    (hb : whole.start ≤ position) (hc : Consecutive whole position blocks) :
    blocks.flatMap (accumulator.entries kernel) = (range' (position - whole.start).toNat
        (whole.keys.length - (position - whole.start).toNat)).map
          (accumulator.entryAt kernel whole) := by
  have hco := whole.covers
  induction blocks generalizing position with
  | nil =>
    have he : position = whole.stop := hc
    have hn : whole.keys.length - (position - whole.start).toNat = 0 := by omega
    rw [hn]
    rfl
  | cons block blocks ih =>
    obtain ⟨stop, ordered, hi, rfl, hr⟩ := hc
    rw [flatMap_cons, ih (by omega) hr, entries_part, ← map_append]
    have hj := @range'_append_1 (position - whole.start).toNat
      ((stop - whole.start).toNat - (position - whole.start).toNat)
      (whole.keys.length - (stop - whole.start).toNat)
    rw [show (position - whole.start).toNat + ((stop - whole.start).toNat -
        (position - whole.start).toNat) = (stop - whole.start).toNat by omega,
      show (stop - whole.start).toNat - (position - whole.start).toNat +
        (whole.keys.length - (stop - whole.start).toNat) =
          whole.keys.length - (position - whole.start).toNat by omega] at hj
    rw [hj]

variable [IsStrictOrderedRing K]

theorem Accumulator.mean_eq {kernel : Kernel K} {accumulator : Accumulator K} {row : Row K}
    {batch head query component : Nat} (hh : row.Holds kernel.exponential
      (mass kernel.exponential (seen entries batch head query component) +
        accumulator.sinkMass kernel head)
      (moment kernel.exponential (seen entries batch head query component))) :
    row.mean = accumulator.attention kernel entries batch head query component := by
  have hm := Softmax.mass_nonneg kernel.exponential (seen entries batch head query component)
  unfold attention
  dsimp only
  split
  · next hn =>
    have hw := hh.weighted
    rw [hn.1] at hw
    rw [Row.mean, hw]
    simp [moment]
  · next hs =>
    apply hh.mean_eq
    cases hp : accumulator.sinks with
    | none =>
      rw [sinkMass_none hp, add_zero]
      exact Softmax.mass_pos _ fun he => hs ⟨he, hp⟩
    | some listed =>
      have hsi : accumulator.sinkMass kernel head = kernel.exponential.exp (listed.getD head 0) := by
        unfold sinkMass
        rw [hp]
      rw [hsi]
      exact add_pos_of_nonneg_of_pos hm (kernel.exponential.pos _)

theorem Accumulator.scan_eq (kernel : Kernel K) {accumulator : Accumulator K}
    (fresh : accumulator.runningMax = none ∧ accumulator.runningSum = none ∧
      accumulator.accumulator = none)
    (sinks : ∀ listed, accumulator.sinks = some listed → listed.length = accumulator.queries.heads)
    {width : Nat}
    (hf : ∀ block ∈ blocks, ∀ part ∈ accumulator.parts block, accumulator.Fits width part) :
    accumulator.scan kernel blocks =
      if (accumulator.context kernel blocks).isEmpty then
        .error (.custom "blockwise attention received no cache blocks")
      else .ok (accumulator.attended kernel width (accumulator.context kernel blocks)) := by
  have initial : Accumulator.Accounted kernel width accumulator [] accumulator := .inl ⟨rfl, rfl⟩
  obtain ⟨last, run, ha⟩ := initial.scan fresh sinks hf
  rw [nil_append, accumulator.context_eq] at ha
  unfold scan
  rw [run]
  show last.finish = _
  unfold finish
  rcases ha with ⟨he, rfl⟩ | ⟨hn, hac⟩
  · rw [fresh.2.2, he]
    rfl
  · obtain ⟨maximum, sum, total, -, hsa, hs, ⟨batch, hh, hl, hw⟩, hr⟩ := hac.rows
    rw [hs, hsa, if_neg (by simpa using hn)]
    dsimp only
    congr 1
    congr 1
    funext batch head query component
    exact mean_eq (hr batch head query component)

/-- Blockwise attention is attention over exactly the keys that each query sees. -/
theorem blockwise_attention_exact (kernel : Kernel K) {accumulator : Accumulator K}
    (fresh : accumulator.runningMax = none ∧ accumulator.runningSum = none ∧
      accumulator.accumulator = none)
    (sinks : ∀ listed, accumulator.sinks = some listed → listed.length = accumulator.queries.heads)
    {width : Nat} {blocks : List (Block K)}
    (fits : ∀ block ∈ blocks, ∀ part ∈ accumulator.parts block, accumulator.Fits width part) :
    accumulator.scan kernel blocks =
      (if (accumulator.context kernel blocks).isEmpty then
        .error (.custom "blockwise attention received no cache blocks")
      else .ok (accumulator.attended kernel width (accumulator.context kernel blocks))) ∧
    (∀ whole, Consecutive whole whole.start blocks →
      accumulator.context kernel blocks = accumulator.context kernel [whole]) ∧
    (∀ masked, accumulator.scan { kernel with masked } blocks = accumulator.scan kernel blocks) := by
  refine ⟨accumulator.scan_eq kernel fresh sinks fits, fun whole hc => ?_, fun masked => ?_⟩
  · unfold context
    rw [hc.entries_eq kernel accumulator (Int.le_refl _), flatMap_singleton, Int.sub_self]
    simp only [Int.toNat_zero, ← range_eq_range']
    rfl
  · rw [accumulator.scan_eq kernel fresh sinks fits, accumulator.scan_eq _ fresh sinks fits]
    rfl

end

open Real in
/-- The real exponential, with a score for masked keys that is the largest of all. -/
noncomputable def realKernel : Kernel ℝ := ⟨⟨exp, exp_pos, exp_add⟩, id, 200⟩

/-- An array with one number for each position. -/
def column (numbers : List ℝ) : Tensor ℝ := ⟨1, 1, numbers.length, 1, fun _ _ key _ => numbers.getD key 0⟩

/-- A query at position 4 of 6 with a window of two positions, a pinned first position, a mask that
hides position 3 and a sink. -/
noncomputable def windowedAccumulator : Accumulator ℝ :=
  .new (column [1]) 1 (some (.boolean 6 fun _ _ _ key => decide (key ≠ 3))) 4 (some 2) 1 (some [0]) 6

/-- Only the positions 0 and 4 are seen. The others have larger scores and values. -/
noncomputable def windowedBlocks : List (Block ℝ) :=
  [⟨0, 3, column [Real.log 2, 100, 100], column [6, 1000, 1000], none, rfl⟩,
    ⟨3, 6, column [100, Real.log 3, 100], column [1000, 4, 1000], none, rfl⟩]

theorem blockwise_attention_mean : ∃ output,
    windowedAccumulator.scan realKernel windowedBlocks = .ok output ∧ output.get 0 0 0 0 = 4 := by
  have fits : ∀ block ∈ windowedBlocks, ∀ part ∈ windowedAccumulator.parts block,
      windowedAccumulator.Fits 1 part := by
    intro block listed part member
    obtain rfl : part = block := mem_singleton.mp member
    rcases mem_cons.mp listed with rfl | last
    · exact ⟨rfl, rfl⟩
    · rw [mem_singleton.mp last]
      exact ⟨rfl, rfl⟩
  have exact := (blockwise_attention_exact realKernel ⟨rfl, rfl, rfl⟩
    (fun _ given => by cases given; rfl) fits).1
  have keys : seen (windowedAccumulator.context realKernel windowedBlocks) 0 0 0 0 =
      [⟨Real.log 2, 6⟩, ⟨Real.log 3, 4⟩] := by
    have each : ∀ position : Int, windowedAccumulator.Sees 0 0 0 position ↔
        (position ≤ 4 ∧ (position < 1 ∨ 4 < position + 2)) ∧ position.toNat ≠ 3 := by
      intro position
      simp [Sees, windowedAccumulator, Accumulator.new, Mask.allows, Mask.width]
    have kept : ∀ position, windowedAccumulator.retains position = true := fun _ => rfl
    simp [seen, context, entries, windowedBlocks, column, entryAt, each, kept, range_succ]
    simp [biasedScore, blockScore, scaledProduct, headProduct, windowedAccumulator, Accumulator.new,
      column, Mask.bias]
  refine ⟨_, exact, ?_⟩
  unfold attended attention
  dsimp only
  rw [keys]
  simp [mass, moment, realKernel, sinkMass, windowedAccumulator, Accumulator.new, Real.exp_log]
  norm_num

end Eredu.Attention
