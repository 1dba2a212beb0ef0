import Eredu.Foundation.Word

/-!
# Offload plans

The explicit units and compact ranges that a residency ledger manages, as in
`residency.rs` and `residency/ranges.rs`. The specifications and the plan carry
the facts their constructors check.
-/

namespace Eredu.Residency

open Std List Word

inductive MemoryTier where
  | device
  | host
  | disk
  deriving DecidableEq, Repr

def MemoryTier.index : MemoryTier → Nat
  | .device => 0
  | .host => 1
  | .disk => 2

instance : Ord MemoryTier := ⟨compareOn MemoryTier.index⟩

inductive ResidencyPolicy where
  | pinned
  | windowed
  | cacheable
  deriving DecidableEq, Repr

inductive CacheEvictionPolicy where
  | leastRecentlyUsed
  | leastFrequentlyUsed
  deriving DecidableEq, Repr

structure OffloadUnitId where
  text : String
  deriving DecidableEq, Repr

instance : Ord OffloadUnitId := ⟨compareOn OffloadUnitId.text⟩

instance : TransOrd OffloadUnitId := inferInstanceAs (TransCmp (compareOn OffloadUnitId.text))

instance : LawfulEqOrd OffloadUnitId where
  eq_of_compare {left right} equal := by
    cases left
    cases right
    exact congrArg OffloadUnitId.mk (LawfulEqOrd.eq_of_compare equal)

structure PerTier (α : Type) where
  device : α
  host : α
  disk : α
  deriving DecidableEq, Repr

namespace PerTier

variable {α : Type}

variable (values : PerTier α)

def get : MemoryTier → α
  | .device => values.device
  | .host => values.host
  | .disk => values.disk

def set (tier : MemoryTier) (value : α) : PerTier α :=
  match tier with
  | .device => { values with device := value }
  | .host => { values with host := value }
  | .disk => { values with disk := value }

theorem get_set (tier other : MemoryTier) (value : α) :
    (values.set tier value).get other = if other = tier then value else values.get other := by
  cases tier <;> cases other <;> rfl

@[simp] theorem get_set_self (tier : MemoryTier) (value : α) :
    (values.set tier value).get tier = value := by
  simp [get_set]

end PerTier

structure OffloadConfig where
  deviceBudgetBytes : Option Nat
  hostBudgetBytes : Option Nat
  prefetchDepth : Nat
  evictionPolicy : CacheEvictionPolicy
  lookahead : prefetchDepth ≠ 0

structure OffloadUnitSpec where
  id : OffloadUnitId
  bytes : Nat
  policy : ResidencyPolicy
  tier : MemoryTier
  nonempty : bytes ≠ 0
  consistent : ¬ (policy = .pinned ∧ tier = .disk)
  deriving DecidableEq

/-- `str::parse::<u64>`: decimal digits, with an optional leading plus sign. -/
def parseU64 (text : List Char) : Option Nat :=
  let digits :=
    match text with
    | '+' :: rest => rest
    | _ => text
  if digits = [] ∨ ¬ digits.all Char.isDigit then
    none
  else
    let value := digits.foldl (fun value digit => value * 10 + (digit.toNat - '0'.toNat)) 0
    if value ≤ maximum then some value else none

/-- A uniform, source-backed range of the units `prefix.<decimal member>`. -/
structure OffloadUnitRange where
  idPrefix : OffloadUnitId
  start : Nat
  frontier : Nat
  bytes : Nat
  policy : ResidencyPolicy
  nonempty : start < frontier
  sized : bytes ≠ 0
  evictable : policy ≠ .pinned
  representable : (frontier - start) * bytes ≤ maximum

variable {id : OffloadUnitId} {spec : OffloadUnitSpec}

namespace OffloadUnitRange

variable (range : OffloadUnitRange)

def memberId (member : Nat) : Option OffloadUnitId :=
  if range.start ≤ member ∧ member < range.frontier then
    some ⟨range.idPrefix.text ++ "." ++ toString member⟩
  else
    none

/-- Resolves an identity without accepting alternate spellings. -/
def member (id : OffloadUnitId) : Option Nat := do
  let rest ← id.text.toList.dropPrefix? range.idPrefix.text.toList
  let suffix ← rest.dropPrefix? ['.']
  let member ← parseU64 suffix
  if range.memberId member = some id then some member else none

def unit (id : OffloadUnitId) : Option OffloadUnitSpec :=
  (range.member id).map fun _ =>
    { id, bytes := range.bytes, policy := range.policy, tier := .disk, nonempty := range.sized,
      consistent contradiction := range.evictable contradiction.1 }

theorem unit_id {range : OffloadUnitRange} (hf : range.unit id = some spec) : spec.id = id := by
  obtain ⟨member, -, rfl⟩ := Option.map_eq_some_iff.mp hf
  rfl

end OffloadUnitRange

/-- A validated plan: explicit units in the order of their identities, and ranges whose members are
none of them. -/
structure OffloadPlan where
  config : OffloadConfig
  units : List OffloadUnitSpec
  ranges : List OffloadUnitRange
  plannedBytes : PerTier Nat
  ordered : units.Pairwise fun left right => compare left.id right.id = .lt
  apart : ∀ unit ∈ units, ∀ range ∈ ranges, range.member unit.id = none

variable (plan : OffloadPlan)

namespace OffloadPlan

/-- `binary_search_by` on the sorted units. -/
def explicit (id : OffloadUnitId) : Option OffloadUnitSpec :=
  plan.units.find? fun unit => unit.id = id

def isExplicit (id : OffloadUnitId) : Bool := (plan.explicit id).isSome

def unit (id : OffloadUnitId) : Option OffloadUnitSpec :=
  plan.explicit id <|> plan.ranges.findSome? fun range => range.unit id

/-- The identity belongs to one of the compact ranges. -/
def IsRangeMember (id : OffloadUnitId) : Prop :=
  ∃ range ∈ plan.ranges, (range.member id).isSome

variable {plan : OffloadPlan}

theorem explicit_id (hf : plan.explicit id = some spec) : spec.id = id := by
  simpa using find?_some hf

theorem unit_id (hf : plan.unit id = some spec) : spec.id = id := by
  unfold unit at hf
  cases he : plan.explicit id with
  | some spec' =>
    rw [he] at hf
    cases hf
    exact explicit_id he
  | none =>
    rw [he] at hf
    obtain ⟨range, -, hm⟩ := exists_of_findSome?_eq_some hf
    exact OffloadUnitRange.unit_id hm

theorem isExplicit_of_isRangeMember (hr : plan.IsRangeMember id) : plan.isExplicit id = false := by
  obtain ⟨range, hl, hm⟩ := hr
  cases he : plan.explicit id with
  | none => simp [isExplicit, he]
  | some spec =>
    have hn := plan.apart spec (mem_of_find?_eq_some he) range hl
    rw [explicit_id he] at hn
    simp [hn] at hm

end OffloadPlan

end Eredu.Residency
