import Eredu.Foundation.Effect
import Eredu.Foundation.Utf8
import Eredu.Residency.Plan

/-!
# The residency ledger

Ownership and capacity state of `ResidencyLedger`. A method that takes
`&mut self` is an `Effect`, so a method that fails keeps the writes it made
before it failed; a read-only check is a result. Byte counts, pins and ticks are
natural numbers and every checked operation of the source tests its bound.
-/

namespace Eredu.Residency

open Std Word

structure EvictedResidencyCopy where
  id : OffloadUnitId
  tier : MemoryTier
  bytes : Nat
  deriving DecidableEq, Repr

structure ResidencyBlocker where
  id : OffloadUnitId
  pinned : Bool
  inUse : Nat
  activeWindow : Bool
  requestProtected : Bool
  deriving DecidableEq, Repr

inductive ResidencyLedgerError where
  | invalidGroupId
  | duplicateBatchUnit
  | unknownUnit (id : OffloadUnitId)
  | invalidTargetTier (operation : String)
  | zeroReservation (id : OffloadUnitId)
  | copyAlreadyExists (id : OffloadUnitId) (tier : MemoryTier)
  | publicationExceedsReservation (id : OffloadUnitId) (tier : MemoryTier)
      (reservedBytes actualBytes : Nat)
  | zeroPublication (id : OffloadUnitId) (tier : MemoryTier)
  | arithmeticOverflow (context : String)
  | budgetExhausted (requested : OffloadUnitId) (tier : MemoryTier)
      (requiredBytes budgetBytes residentBytes : Nat) (blockingUnits : List ResidencyBlocker)
  | pinnedEviction (id : OffloadUnitId) (tier : MemoryTier)
  | inUseEviction (id : OffloadUnitId) (tier : MemoryTier) (pinCount : Nat)
  | stateInconsistent (id : OffloadUnitId) (tier : MemoryTier) (operation : String)
  deriving DecidableEq, Repr

inductive CopyLifecycle where
  | reserved
  | resident
  deriving DecidableEq, Repr

structure LedgerCopy where
  lifecycle : CopyLifecycle
  bytes : Nat
  pins : Nat
  lastUsed : Nat
  frequency : Nat
  inFlight : Option Nat
  deriving DecidableEq, Repr

structure ResidentCopyStatus where
  bytes : Nat
  pins : Nat
  inFlight : Option Nat
  deriving DecidableEq, Repr

def LedgerCopy.status (copy : LedgerCopy) : Option ResidentCopyStatus :=
  if copy.lifecycle = .resident then some ⟨copy.bytes, copy.pins, copy.inFlight⟩ else none

structure LedgerUnit where
  spec : OffloadUnitSpec
  host : Option LedgerCopy
  device : Option LedgerCopy

namespace LedgerUnit

def copy (unit : LedgerUnit) : MemoryTier → Option LedgerCopy
  | .host => unit.host
  | .device => unit.device
  | .disk => none

def setCopy (unit : LedgerUnit) (tier : MemoryTier) (copy : Option LedgerCopy) : LedgerUnit :=
  match tier with
  | .host => { unit with host := copy }
  | .device => { unit with device := copy }
  | .disk => unit

end LedgerUnit

structure EvictionMetrics where
  count : Nat
  bytes : Nat
  deriving DecidableEq, Repr

def EvictionMetrics.record (metrics : EvictionMetrics) (bytes : Nat) : EvictionMetrics where
  count := saturatingAdd metrics.count 1
  bytes := saturatingAdd metrics.bytes bytes

structure OffloadTelemetry where
  residentBytes : PerTier Nat
  peakResidentBytes : PerTier Nat
  residentUnits : PerTier Nat
  peakResidentUnits : PerTier Nat
  evictions : EvictionMetrics
  tierEvictions : PerTier EvictionMetrics

namespace OffloadTelemetry

def empty : OffloadTelemetry where
  residentBytes := ⟨0, 0, 0⟩
  peakResidentBytes := ⟨0, 0, 0⟩
  residentUnits := ⟨0, 0, 0⟩
  peakResidentUnits := ⟨0, 0, 0⟩
  evictions := ⟨0, 0⟩
  tierEvictions := ⟨⟨0, 0⟩, ⟨0, 0⟩, ⟨0, 0⟩⟩

def raise (peaks : PerTier Nat) (tier : MemoryTier) (value : Nat) : PerTier Nat :=
  if peaks.get tier < value then peaks.set tier value else peaks

variable (telemetry : OffloadTelemetry) (tier : MemoryTier)

def setResidentBytes (bytes : Nat) : OffloadTelemetry :=
  { telemetry with
    residentBytes := telemetry.residentBytes.set tier bytes
    peakResidentBytes := raise telemetry.peakResidentBytes tier bytes }

def setResidentUnits (units : Nat) : OffloadTelemetry :=
  { telemetry with
    residentUnits := telemetry.residentUnits.set tier units
    peakResidentUnits := raise telemetry.peakResidentUnits tier units }

def recordTierEviction (bytes : Nat) : OffloadTelemetry :=
  { telemetry with
    evictions := telemetry.evictions.record bytes
    tierEvictions := telemetry.tierEvictions.set tier
      ((telemetry.tierEvictions.get tier).record bytes) }

end OffloadTelemetry

/-- The name of a protected window: a group and the tier it protects. -/
structure WindowKey where
  group : String
  tier : MemoryTier
  deriving DecidableEq, Repr

instance : Ord WindowKey := ⟨compareLex (compareOn WindowKey.group) (compareOn WindowKey.tier)⟩

structure ResidencyLedger where
  plan : OffloadPlan
  units : TreeMap OffloadUnitId LedgerUnit
  groupWindows : TreeMap WindowKey (TreeSet OffloadUnitId)
  activeWindows : TreeMap MemoryTier (TreeSet OffloadUnitId)
  telemetry : OffloadTelemetry
  residentBytes : PerTier Nat
  tick : Nat
  nextTransferGeneration : Nat

namespace ResidencyLedger

def emptyUnit (spec : OffloadUnitSpec) : LedgerUnit := { spec, host := none, device := none }

def new (plan : OffloadPlan) : ResidencyLedger where
  plan
  units := plan.units.foldl (fun units spec => units.insert spec.id (emptyUnit spec)) ∅
  groupWindows := ∅
  activeWindows := ∅
  telemetry := .empty
  residentBytes := ⟨0, 0, 0⟩
  tick := 0
  nextTransferGeneration := 1

variable (ledger : ResidencyLedger)

def values : List LedgerUnit := ledger.units.toList.map (·.2)

variable (tier : MemoryTier) (id : OffloadUnitId)

def copy (tier : MemoryTier) : Option LedgerCopy :=
  ledger.units[id]?.bind fun unit => unit.copy tier

def spec : Except ResidencyLedgerError OffloadUnitSpec :=
  match (ledger.units[id]?.map (·.spec)) <|> ledger.plan.unit id with
  | some spec => .ok spec
  | none => .error (.unknownUnit id)

def budget : MemoryTier → Option Nat
  | .host => ledger.plan.config.hostBudgetBytes
  | .device => ledger.plan.config.deviceBudgetBytes
  | .disk => none

def tierBytes : Nat := ledger.residentBytes.get tier

def setTierBytes (bytes : Nat) : ResidencyLedger :=
  { ledger with residentBytes := ledger.residentBytes.set tier bytes }

def setUnit (unit : LedgerUnit) : ResidencyLedger :=
  { ledger with units := ledger.units.insert id unit }

def inActiveWindow : Bool :=
  ledger.activeWindows[tier]?.any fun window => window.contains id

def updateResidentTelemetry : ResidencyLedger :=
  let units := ledger.values.countP fun unit => ((unit.copy tier).bind LedgerCopy.status).isSome
  { ledger with
    telemetry := (ledger.telemetry.setResidentBytes tier (ledger.tierBytes tier)).setResidentUnits
      tier units }

def halveLastUsed (unit : LedgerUnit) : LedgerUnit :=
  let halve := Option.map fun copy : LedgerCopy => { copy with lastUsed := copy.lastUsed / 2 }
  { unit with host := halve unit.host, device := halve unit.device }

end ResidencyLedger

open ResidencyLedger

variable (id : OffloadUnitId) (tier : MemoryTier) (operation : String)

def validateLedgerTier : Except ResidencyLedgerError Unit :=
  if tier = .disk then .error (.invalidTargetTier operation) else .ok ()

def inconsistent : ResidencyLedgerError :=
  .stateInconsistent id tier operation

/-- Every unit is known and named once; `seen` holds the units before. -/
def checkBatch (ledger : ResidencyLedger) (seen : List OffloadUnitId) :
    List OffloadUnitId → Except ResidencyLedgerError Unit
  | [] => .ok ()
  | id :: rest =>
      if id ∈ seen then
        .error .duplicateBatchUnit
      else do
        let _ ← ledger.spec id
        checkBatch ledger (id :: seen) rest

def validateBatch (ledger : ResidencyLedger) (ids : List OffloadUnitId) (tier : MemoryTier) :
    Except ResidencyLedgerError Unit := do
  validateLedgerTier tier "residency batch"
  checkBatch ledger [] ids

/-- The key by which copies are evicted, smallest first. -/
structure Candidate where
  priority : Nat
  frequency : Nat
  lastUsed : Nat
  id : OffloadUnitId

def Candidate.order (left right : Candidate) : Ordering :=
  (compare left.priority right.priority).then <|
    (compare left.frequency right.frequency).then <|
      (compare left.lastUsed right.lastUsed).then <| compare left.id right.id

def evictionCandidate (ledger : ResidencyLedger) (tier : MemoryTier)
    (protectedIds : TreeSet OffloadUnitId) (unit : LedgerUnit) : Option Candidate := do
  let copy ← unit.copy tier
  if copy.lifecycle ≠ .resident ∨ unit.spec.policy = .pinned ∨ copy.pins ≠ 0 ∨
      protectedIds.contains unit.spec.id ∨ ledger.inActiveWindow tier unit.spec.id then
    none
  else
    let priority ← match unit.spec.policy with
      | .windowed => some 0
      | .cacheable => some 1
      | .pinned => none
    let frequency := match ledger.plan.config.evictionPolicy with
      | .leastRecentlyUsed => 0
      | .leastFrequentlyUsed => copy.frequency
    some ⟨priority, frequency, copy.lastUsed, unit.spec.id⟩

def evictionCandidates (ledger : ResidencyLedger) (tier : MemoryTier)
    (protectedIds : TreeSet OffloadUnitId) : List OffloadUnitId :=
  let candidates := ledger.values.filterMap (evictionCandidate ledger tier protectedIds)
  (candidates.mergeSort fun left right => (left.order right).isLE).map (·.id)

def blocker (ledger : ResidencyLedger) (tier : MemoryTier) (protectedIds : TreeSet OffloadUnitId)
    (unit : LedgerUnit) : Option ResidencyBlocker := do
  let copy ← unit.copy tier
  if copy.lifecycle ≠ .resident then
    none
  else
    let pinned := decide (unit.spec.policy = .pinned)
    let activeWindow := ledger.inActiveWindow tier unit.spec.id
    let requestProtected := protectedIds.contains unit.spec.id
    if pinned || copy.pins != 0 || activeWindow || requestProtected then
      some { id := unit.spec.id, pinned, inUse := copy.pins, activeWindow, requestProtected }
    else
      none

def blockers (ledger : ResidencyLedger) (tier : MemoryTier) (protectedIds : TreeSet OffloadUnitId) :
    List ResidencyBlocker :=
  ledger.values.filterMap (blocker ledger tier protectedIds)

abbrev LedgerM : Type → Type := Effect ResidencyLedger ResidencyLedgerError

def nextTick : LedgerM Nat := do
  modify fun ledger =>
    if ledger.tick = maximum then
      { ledger with
        units := ledger.units.map fun _ unit => halveLastUsed unit
        tick := ledger.tick / 2 }
    else
      ledger
  modify fun ledger => { ledger with tick := ledger.tick + 1 }
  return (← get).tick

/-- Drops the entry of a range member that owns no copy. -/
def dropEmptyEntry (ledger : ResidencyLedger) : ResidencyLedger :=
  if !ledger.plan.isExplicit id &&
      ledger.units[id]?.any fun unit => unit.host.isNone && unit.device.isNone then
    { ledger with units := ledger.units.erase id }
  else
    ledger

def takeCopy : LedgerM LedgerCopy := do
  let ledger ← get
  match ledger.units[id]? with
  | none => .fail (inconsistent id tier "copy removal")
  | some unit =>
    match unit.copy tier with
    | none => .fail (inconsistent id tier "copy removal")
    | some copy =>
      set (ledger.setUnit id (unit.setCopy tier none))
      return copy

def removeCopy (recordEviction : Bool) : LedgerM EvictedResidencyCopy := do
  let copy ← takeCopy id tier
  let ledger ← get
  match checkedSub (ledger.tierBytes tier) copy.bytes with
  | none => .fail (inconsistent id tier "copy removal accounting")
  | some bytes =>
    modify fun ledger => (dropEmptyEntry id (ledger.setTierBytes tier bytes)).updateResidentTelemetry
      tier
    if recordEviction then
      modify fun ledger =>
        { ledger with telemetry := ledger.telemetry.recordTierEviction tier copy.bytes }
    return { id, tier, bytes := copy.bytes }

def admitRequests (ledger : ResidencyLedger) (tier : MemoryTier) (totalRequired : Nat) :
    List (OffloadUnitId × Nat) → Except ResidencyLedgerError Nat
  | [] => .ok totalRequired
  | (id, requiredBytes) :: rest =>
      if requiredBytes = 0 then
        .error (.zeroReservation id)
      else if (ledger.copy id tier).isSome then
        .error (.copyAlreadyExists id tier)
      else
        match checkedAdd totalRequired requiredBytes with
        | none => .error (.arithmeticOverflow "batch capacity reservation")
        | some total => admitRequests ledger tier total rest

/-- Takes candidates in order until they release enough. -/
def chooseVictims (ledger : ResidencyLedger) (tier : MemoryTier) (requiredRelease releasable : Nat) :
    List OffloadUnitId → Except ResidencyLedgerError (List OffloadUnitId × Nat)
  | [] => .ok ([], releasable)
  | victim :: rest =>
      match ledger.copy victim tier with
      | none => .error (inconsistent victim tier "capacity eviction planning")
      | some copy =>
        match checkedAdd releasable copy.bytes with
        | none => .error (.arithmeticOverflow "eviction capacity planning")
        | some releasable =>
          if requiredRelease ≤ releasable then
            .ok ([victim], releasable)
          else
            (chooseVictims ledger tier requiredRelease releasable rest).map fun chosen =>
              (victim :: chosen.1, chosen.2)

def planEvictions (ledger : ResidencyLedger) (requested : OffloadUnitId) (tier : MemoryTier)
    (protectedIds : TreeSet OffloadUnitId) (totalRequired : Nat) :
    Except ResidencyLedgerError (List OffloadUnitId) :=
  match ledger.budget tier with
  | none => .ok []
  | some budget =>
    match checkedAdd (ledger.tierBytes tier) totalRequired with
    | none => .error (.arithmeticOverflow "budget reservation")
    | some needed =>
      let requiredRelease := needed - budget
      if requiredRelease = 0 then
        .ok []
      else do
        let (victims, releasable) ← chooseVictims ledger tier requiredRelease 0
          (evictionCandidates ledger tier protectedIds)
        if releasable < requiredRelease then
          .error (.budgetExhausted requested tier totalRequired budget (ledger.tierBytes tier)
            (blockers ledger tier protectedIds))
        else
          .ok victims

def ensureEntry : LedgerM Unit := do
  let ledger ← get
  if ledger.units.contains id then
    return
  else
    let spec ← .ofResult (ledger.spec id)
    set (ledger.setUnit id (emptyUnit spec))

def insertReservation (request : OffloadUnitId × Nat) : LedgerM Unit := do
  let tick ← nextTick
  ensureEntry request.1
  let ledger ← get
  match ledger.units[request.1]? with
  | none => .fail (inconsistent request.1 tier "reservation insertion")
  | some unit =>
    if tier = .disk then
      .fail (inconsistent request.1 tier "reservation insertion")
    else
      set (ledger.setUnit request.1 (unit.setCopy tier (some
        { lifecycle := .reserved, bytes := request.2, pins := 0, lastUsed := tick, frequency := 0,
          inFlight := none })))

def reserveCopies (requests : List (OffloadUnitId × Nat)) (tier : MemoryTier)
    (protectedIds : TreeSet OffloadUnitId) : LedgerM (List EvictedResidencyCopy) := do
  .ofResult (validateLedgerTier tier "capacity reservation")
  let ledger ← get
  .ofResult (validateBatch ledger (requests.map (·.1)) tier)
  let totalRequired ← .ofResult (admitRequests ledger tier 0 requests)
  match requests with
  | [] => return []
  | (requested, _) :: _ =>
    let victims ← .ofResult (planEvictions ledger requested tier protectedIds totalRequired)
    let evicted ← victims.mapM fun victim => removeCopy victim tier true
    let ledger ← get
    match checkedAdd (ledger.tierBytes tier) totalRequired with
    | none => .fail (.arithmeticOverflow "resident byte reservation")
    | some charged =>
      modify fun ledger => ledger.setTierBytes tier charged
      requests.forM (insertReservation tier)
      modify fun ledger => ledger.updateResidentTelemetry tier
      return evicted

def publishReserved (actualBytes : Nat) (inFlight : Option Nat) : LedgerM Unit := do
  .ofResult (validateLedgerTier tier "copy publication")
  let ledger ← get
  match ledger.copy id tier with
  | none => .fail (inconsistent id tier "publication lookup")
  | some reserved =>
    if reserved.lifecycle ≠ .reserved then
      .fail (inconsistent id tier "publication lifecycle")
    else if actualBytes = 0 then
      .fail (.zeroPublication id tier)
    else if reserved.bytes < actualBytes then
      .fail (.publicationExceedsReservation id tier reserved.bytes actualBytes)
    else
      match (checkedSub (ledger.tierBytes tier) reserved.bytes).bind fun bytes =>
          checkedAdd bytes actualBytes with
      | none => .fail (inconsistent id tier "publication accounting")
      | some adjusted =>
        modify fun ledger => ledger.setTierBytes tier adjusted
        let tick ← nextTick
        let ledger ← get
        match ledger.units[id]? with
        | none => .fail (inconsistent id tier "publication mutation")
        | some unit =>
          if (unit.copy tier).isNone then
            .fail (inconsistent id tier "publication mutation")
          else
            set ((ledger.setUnit id (unit.setCopy tier (some
              { lifecycle := .resident, bytes := actualBytes, pins := 0, lastUsed := tick,
                frequency := 0, inFlight }))).updateResidentTelemetry tier)

def rollbackReserved : LedgerM Unit := do
  .ofResult (validateLedgerTier tier "reservation rollback")
  let ledger ← get
  match ledger.copy id tier with
  | none => return
  | some copy =>
    if copy.lifecycle ≠ .reserved then
      return
    else
      discard (removeCopy id tier false)

def nextTransferGeneration : LedgerM Nat := do
  let ledger ← get
  match checkedAdd ledger.nextTransferGeneration 1 with
  | none => .fail (.arithmeticOverflow "resident transfer generation")
  | some next =>
    set { ledger with nextTransferGeneration := next }
    return ledger.nextTransferGeneration

/-- Settles one unit of a transfer; a copy of another generation is left alone. -/
def resolveUnit (generation : Nat) (succeeded : Bool) (id : OffloadUnitId) :
    LedgerM (Option EvictedResidencyCopy) := do
  let ledger ← get
  match ledger.units[id]? with
  | none => return none
  | some unit =>
    match unit.copy tier with
    | none => return none
    | some copy =>
      if copy.lifecycle = .resident ∧ copy.inFlight = some generation then
        if succeeded then
          set (ledger.setUnit id (unit.setCopy tier (some { copy with inFlight := none })))
          return none
        else
          some <$> removeCopy id tier false
      else
        return none

/-- Resolves exact transfer completion and returns failed backend copies to release. -/
def resolveTransfer (ids : List OffloadUnitId) (tier : MemoryTier) (generation : Nat)
    (succeeded : Bool) : LedgerM (List EvictedResidencyCopy) := do
  .ofResult (validateLedgerTier tier "transfer resolution")
  let ledger ← get
  .ofResult (validateBatch ledger ids tier)
  let removed ← ids.mapM (resolveUnit tier generation succeeded)
  return removed.reduceOption

def pin (demand : Nat) : LedgerM ResidentCopyStatus := do
  .ofResult (validateLedgerTier tier "pin")
  let tick ← nextTick
  let ledger ← get
  match ledger.units[id]? with
  | none => .fail (.unknownUnit id)
  | some unit =>
    match unit.copy tier with
    | none => .fail (inconsistent id tier "pin")
    | some copy =>
      if copy.lifecycle ≠ .resident then
        .fail (inconsistent id tier "pin")
      else
        match checkedAdd copy.pins 1 with
        | none => .fail (.arithmeticOverflow "resident lease count")
        | some pins =>
          set (ledger.setUnit id (unit.setCopy tier (some
            { copy with
              pins := pins
              lastUsed := tick
              frequency := saturatingAdd copy.frequency demand })))
          return ⟨copy.bytes, pins, copy.inFlight⟩

/-- Releases one pin. Unknown copies are ignored, and pins stop at zero. -/
def unpin : LedgerM Unit := do
  let ledger ← get
  match ledger.units[id]? with
  | none => return
  | some unit =>
    match unit.copy tier with
    | none => return
    | some copy => set (ledger.setUnit id (unit.setCopy tier (some { copy with pins := copy.pins - 1 })))

def touch : LedgerM Unit := do
  .ofResult (validateLedgerTier tier "touch")
  let tick ← nextTick
  let ledger ← get
  match ledger.units[id]? with
  | none => .fail (.unknownUnit id)
  | some unit =>
    match unit.copy tier with
    | none => .fail (inconsistent id tier "touch")
    | some copy =>
      if copy.lifecycle ≠ .resident then
        .fail (inconsistent id tier "touch")
      else
        set (ledger.setUnit id (unit.setCopy tier (some { copy with lastUsed := tick })))

def setGroupWindow (group : String) (active : List OffloadUnitId) (tier : MemoryTier) :
    LedgerM Unit := do
  .ofResult (validateLedgerTier tier "protected window")
  if group.toList.all Utf8.isWhitespace then
    .fail .invalidGroupId
  else
    let ledger ← get
    .ofResult (validateBatch ledger active tier)
    let groupWindows := if active.isEmpty then ledger.groupWindows.erase ⟨group, tier⟩
      else ledger.groupWindows.insert ⟨group, tier⟩ (TreeSet.ofList active)
    let union := groupWindows.toList.foldl
      (fun union entry => if entry.1.tier = tier then union.insertMany entry.2.toList else union) ∅
    set { ledger with
      groupWindows
      activeWindows := ledger.activeWindows.insert tier union }

def evict : LedgerM (Option EvictedResidencyCopy) := do
  .ofResult (validateLedgerTier tier "evict")
  let ledger ← get
  let _ ← .ofResult (ledger.spec id)
  match ledger.units[id]? with
  | none => return none
  | some unit =>
    match (unit.copy tier).bind LedgerCopy.status with
    | none => return none
    | some copy =>
      if unit.spec.policy = .pinned then
        .fail (.pinnedEviction id tier)
      else if copy.pins ≠ 0 then
        .fail (.inUseEviction id tier copy.pins)
      else
        some <$> removeCopy id tier true

inductive LedgerCall where
  | reserveCopies (requests : List (OffloadUnitId × Nat)) (tier : MemoryTier)
      (protectedIds : TreeSet OffloadUnitId)
  | publishReserved (id : OffloadUnitId) (tier : MemoryTier) (actualBytes : Nat)
      (inFlight : Option Nat)
  | rollbackReserved (id : OffloadUnitId) (tier : MemoryTier)
  | nextTransferGeneration
  | resolveTransfer (ids : List OffloadUnitId) (tier : MemoryTier) (generation : Nat)
      (succeeded : Bool)
  | pin (id : OffloadUnitId) (tier : MemoryTier) (demand : Nat)
  | unpin (id : OffloadUnitId) (tier : MemoryTier)
  | touch (id : OffloadUnitId) (tier : MemoryTier)
  | setGroupWindow (group : String) (active : List OffloadUnitId) (tier : MemoryTier)
  | evict (id : OffloadUnitId) (tier : MemoryTier)

def LedgerCall.perform : LedgerCall → LedgerM Unit
  | .reserveCopies requests tier protectedIds =>
      discard (Residency.reserveCopies requests tier protectedIds)
  | .publishReserved id tier actualBytes inFlight =>
      Residency.publishReserved id tier actualBytes inFlight
  | .rollbackReserved id tier => Residency.rollbackReserved id tier
  | .nextTransferGeneration => discard Residency.nextTransferGeneration
  | .resolveTransfer ids tier generation succeeded =>
      discard (Residency.resolveTransfer ids tier generation succeeded)
  | .pin id tier demand => discard (Residency.pin id tier demand)
  | .unpin id tier => Residency.unpin id tier
  | .touch id tier => Residency.touch id tier
  | .setGroupWindow group active tier => Residency.setGroupWindow group active tier
  | .evict id tier => discard (Residency.evict id tier)

inductive Reachable (plan : OffloadPlan) : ResidencyLedger → Prop
  | new : Reachable plan (.new plan)
  | call {ledger : ResidencyLedger} (before : Reachable plan ledger) (call : LedgerCall) :
      Reachable plan (call.perform.final ledger)

end Eredu.Residency
