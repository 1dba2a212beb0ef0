import Eredu.Foundation.Softmax

/-!
# Attention over the blocks of a cache

`Accumulator` scans the blocks of a key/value cache one after the other and keeps
for every query a running maximum, a running sum of weights and an accumulator of
weighted values. Numbers are elements of an ordered field, so that the arithmetic
is exact and conversions between float types do nothing; the variant that rounds
the scores to the input type has no exact counterpart and is left out.
-/

namespace Eredu.Attention

open Softmax (Exponential)

variable (K : Type)

/-- A rank-4 array: batch, head, position and component. -/
structure Tensor where
  batch : Nat
  heads : Nat
  length : Nat
  width : Nat
  get : Nat → Nat → Nat → Nat → K

def Tensor.rows {K : Type} (tensor : Tensor K) (start stop : Nat) : Tensor K :=
  { tensor with
    length := stop - start
    get batch head position component := tensor.get batch head (start + position) component }

/-- The functions of the array library on numbers, and the score of masked keys. -/
structure Kernel [Field K] [LinearOrder K] where
  exponential : Exponential K
  tanh : K → K
  masked : K

inductive Arithmetic where
  | fused
  | float32
  deriving Repr, DecidableEq

/-- A mask over the last positions of the context. In an additive mask, a missing number is minus
infinity. -/
inductive Mask where
  | boolean (width : Nat) (get : Nat → Nat → Nat → Nat → Bool)
  | additive (width : Nat) (get : Nat → Nat → Nat → Nat → Option K)

def Mask.width {K : Type} : Mask K → Nat
  | .boolean width _ => width
  | .additive width _ => width

/-- Whether a mask leaves a key visible. -/
def Mask.allows {K : Type} : Mask K → Nat → Nat → Nat → Nat → Bool
  | .boolean _ get, batch, head, query, key => get batch head query key
  | .additive _ get, batch, head, query, key => (get batch head query key).isSome

def Mask.bias {K : Type} [Zero K] : Mask K → Nat → Nat → Nat → Nat → K
  | .boolean _ _, _, _, _, _ => 0
  | .additive _ get, batch, head, query, key => (get batch head query key).getD 0

inductive AttentionError where
  | custom (message : String)
  /-- The array library refuses the shapes. -/
  | array
  deriving Repr, DecidableEq

/-- `KeyValueAttentionBlock`, with the bias that the caller passes along with it. -/
structure Block where
  start : Int
  stop : Int
  keys : Tensor K
  values : Tensor K
  bias : Option (Nat → Nat → Nat → Nat → K)
  covers : (keys.length : Int) = stop - start

structure Accumulator where
  queries : Tensor K
  scale : K
  softcap : Option K
  arithmetic : Arithmetic
  causal : Bool
  retainedStart : Option Int
  explicitMask : Option (Mask K)
  queryStart : Int
  slidingWindow : Option Int
  prefixTokens : Int
  sinks : Option (List K)
  maskOrigin : Int
  runningMax : Option (Nat → Nat → Nat → K)
  runningSum : Option (Nat → Nat → Nat → K)
  accumulator : Option (Tensor K)

def absoluteAttentionMask (slidingWindow : Option Int) (prefixTokens query key : Int) : Bool :=
  let causal := decide (key ≤ query)
  let visible := match slidingWindow with
    | none => true
    | some window => decide (key < prefixTokens) || decide (query - (window - 1) ≤ key)
  causal && visible

section

variable {K : Type} [Field K] [LinearOrder K]

namespace Accumulator

def new (queries : Tensor K) (scale : K) (explicitMask : Option (Mask K)) (queryStart : Int)
    (slidingWindow : Option Int) (prefixTokens : Int) (sinks : Option (List K)) (contextEnd : Int) :
    Accumulator K where
  queries := queries
  scale := scale
  softcap := none
  arithmetic := .fused
  causal := true
  retainedStart := none
  explicitMask := explicitMask
  queryStart := queryStart
  slidingWindow := slidingWindow
  prefixTokens := prefixTokens
  sinks := sinks
  maskOrigin := match explicitMask with
    | none => 0
    | some mask => contextEnd - mask.width
  runningMax := none
  runningSum := none
  accumulator := none

variable (kernel : Kernel K) (accumulator : Accumulator K) (block : Block K)
  (batch head query key : Nat)

def groupedHead : Nat :=
  head / (accumulator.queries.heads / block.keys.heads)

def headProduct (factor : K) (batch head query key : Nat) : K :=
  ((List.range accumulator.queries.width).map fun component =>
    accumulator.queries.get batch head query component * factor *
      block.keys.get batch (accumulator.groupedHead block head) key component).sum

def scaledProduct : K :=
  match accumulator.arithmetic with
  | .float32 => accumulator.headProduct block 1 batch head query key * accumulator.scale
  | .fused => accumulator.headProduct block accumulator.scale batch head query key

def blockScore : K :=
  let score := accumulator.scaledProduct block batch head query key
  let score := match accumulator.softcap with
    | none => score
    | some cap => kernel.tanh (score * cap⁻¹) * cap
  match block.bias with
  | none => score
  | some bias => score + bias batch head query key

def biasedScore : K :=
  let score := accumulator.blockScore kernel block batch head query key
  match accumulator.explicitMask with
  | none => score
  | some mask => score +
      mask.bias batch head query (block.start - accumulator.maskOrigin + key).toNat

def effectiveMask : Bool :=
  let allowed := !accumulator.causal ||
    absoluteAttentionMask accumulator.slidingWindow accumulator.prefixTokens
      (accumulator.queryStart + query) (block.start + key)
  match accumulator.explicitMask with
  | none => allowed
  | some mask => allowed &&
      mask.allows batch head query (block.start - accumulator.maskOrigin + key).toNat

def maskedScore : K :=
  if accumulator.effectiveMask block batch head query key then
    accumulator.biasedScore kernel block batch head query key
  else
    kernel.masked

def maxAxis : List K → K
  | [] => 0
  | first :: rest => rest.foldl max first

def blockMax : K :=
  maxAxis ((List.range block.keys.length).map
    (accumulator.maskedScore kernel block batch head query))

def weight : K :=
  kernel.exponential.exp (accumulator.maskedScore kernel block batch head query key -
      accumulator.blockMax kernel block batch head query) *
    if accumulator.effectiveMask block batch head query key then 1 else 0

def blockSum : K :=
  ((List.range block.keys.length).map (accumulator.weight kernel block batch head query)).sum

def blockAccumulator : Tensor K where
  batch := accumulator.queries.batch
  heads := accumulator.queries.heads
  length := accumulator.queries.length
  width := block.values.width
  get batch head query component :=
    ((List.range block.keys.length).map fun key =>
      accumulator.weight kernel block batch head query key *
        block.values.get batch (accumulator.groupedHead block head) key component).sum

def checkBlock : Except AttentionError Unit :=
  if block.values.batch ≠ block.keys.batch ∨ block.values.heads ≠ block.keys.heads ∨
      block.values.length ≠ block.keys.length ∨ block.keys.heads = 0 ∨
      block.keys.width ≠ accumulator.queries.width then
    .error (.custom "paged key/value block shapes are inconsistent")
  else if accumulator.queries.heads % block.keys.heads ≠ 0 then
    .error (.custom "query attention heads are not divisible by paged key/value heads")
  else if block.keys.batch ≠ accumulator.queries.batch then
    .error .array
  else if accumulator.explicitMask.any fun mask =>
      block.start < accumulator.maskOrigin || mask.width < block.stop - accumulator.maskOrigin then
    .error (.custom "paged attention mask does not cover every visible cache block")
  else if block.keys.length = 0 then
    .error .array
  else
    .ok ()

def start : Except AttentionError (Accumulator K) :=
  let blockMax := accumulator.blockMax kernel block
  let blockSum := accumulator.blockSum kernel block
  let blockAccumulator := accumulator.blockAccumulator kernel block
  match accumulator.sinks with
  | none => .ok { accumulator with
      runningMax := some blockMax
      runningSum := some blockSum
      accumulator := some blockAccumulator }
  | some sinks =>
    if sinks.length ≠ accumulator.queries.heads then
      .error (.custom "paged attention sinks must have one value per query head")
    else
      let exp := kernel.exponential.exp
      let newMax := fun batch head query => max (sinks.getD head 0) (blockMax batch head query)
      let blockScale := fun batch head query =>
        exp (blockMax batch head query - newMax batch head query)
      .ok { accumulator with
        runningMax := some newMax
        runningSum := some fun batch head query =>
          exp (sinks.getD head 0 - newMax batch head query) +
            blockSum batch head query * blockScale batch head query
        accumulator := some { blockAccumulator with
          get batch head query component :=
            blockAccumulator.get batch head query component * blockScale batch head query } }

/-- The recurrence: both sides are brought to the new maximum. -/
def extend (oldMax oldSum : Nat → Nat → Nat → K) (old : Tensor K) :
    Except AttentionError (Accumulator K) :=
  let blockMax := accumulator.blockMax kernel block
  let blockSum := accumulator.blockSum kernel block
  let blockAccumulator := accumulator.blockAccumulator kernel block
  if blockAccumulator.width ≠ old.width then
    .error .array
  else
    let exp := kernel.exponential.exp
    let newMax := fun batch head query => max (oldMax batch head query) (blockMax batch head query)
    let oldScale := fun batch head query => exp (oldMax batch head query - newMax batch head query)
    let blockScale := fun batch head query =>
      exp (blockMax batch head query - newMax batch head query)
    .ok { accumulator with
      runningMax := some newMax
      runningSum := some fun batch head query =>
        oldSum batch head query * oldScale batch head query +
          blockSum batch head query * blockScale batch head query
      accumulator := some { old with
        get batch head query component :=
          old.get batch head query component * oldScale batch head query +
            blockAccumulator.get batch head query component * blockScale batch head query } }

def accumulateVisible : Except AttentionError (Accumulator K) := do
  accumulator.checkBlock block
  match accumulator.runningMax, accumulator.runningSum, accumulator.accumulator with
  | some oldMax, some oldSum, some old => accumulator.extend kernel block oldMax oldSum old
  | _, _, _ => accumulator.start kernel block

end Accumulator

def Block.part (block : Block K) (start stop : Int) (ordered : block.start ≤ start ∧ start < stop) :
    Block K where
  start := start
  stop := stop
  keys := block.keys.rows (start - block.start).toNat (stop - block.start).toNat
  values := block.values.rows (start - block.start).toNat (stop - block.start).toNat
  bias := block.bias.map fun bias batch head query key =>
    bias batch head query ((start - block.start).toNat + key)
  covers := by
    simp only [Tensor.rows]
    omega

def Accumulator.parts (accumulator : Accumulator K) (block : Block K) : List (Block K) :=
  match accumulator.retainedStart with
  | none => [block]
  | some start =>
    let frontEnd := min (min block.stop accumulator.prefixTokens) start
    let restStart := max block.start start
    (if ordered : block.start ≤ block.start ∧ block.start < frontEnd then
      [block.part block.start frontEnd ordered] else []) ++
    (if ordered : block.start ≤ restStart ∧ restStart < block.stop then
      [block.part restStart block.stop ordered] else [])

namespace Accumulator

def accumulateWithBias (kernel : Kernel K) (accumulator : Accumulator K) (block : Block K) :
    Except AttentionError (Accumulator K) :=
  (accumulator.parts block).foldlM (fun accumulator part => accumulator.accumulateVisible kernel part)
    accumulator

def finish (accumulator : Accumulator K) : Except AttentionError (Tensor K) :=
  match accumulator.accumulator with
  | none => .error (.custom "blockwise attention received no cache blocks")
  | some total =>
    match accumulator.runningSum with
    | none => .error (.custom "blockwise attention normalization is empty")
    | some sum => .ok { total with
        get batch head query component :=
          total.get batch head query component /
            if 0 < sum batch head query then sum batch head query else 1 }

def scan (kernel : Kernel K) (accumulator : Accumulator K) (blocks : List (Block K)) :
    Except AttentionError (Tensor K) := do
  let accumulator ← blocks.foldlM (fun accumulator block =>
    accumulator.accumulateWithBias kernel block) accumulator
  accumulator.finish

end Accumulator

end

end Eredu.Attention
