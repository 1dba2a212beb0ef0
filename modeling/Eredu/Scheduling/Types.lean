import Eredu.Foundation.Effect

/-!
# Identities, containers and errors of the transactional scheduler

The data of `scheduler.rs`. Ordered maps and sets are the standard library's
`TreeMap` and `TreeSet`; an `Instant` is its distance from an arbitrary origin,
so instants and durations are natural numbers.
-/

namespace Eredu.Scheduling

open Std

def u64Max : Nat := 2 ^ 64 - 1

/-- The largest `usize` of a 64-bit target. -/
def usizeMax : Nat := 2 ^ 64 - 1

def saturatingAdd (left right : Nat) : Nat := min (left + right) u64Max

structure RequestId where
  value : UInt64
  deriving DecidableEq, Repr

instance : Ord RequestId := ⟨compareOn RequestId.value⟩

instance : TransOrd RequestId := inferInstanceAs (TransCmp (compareOn RequestId.value))

instance : LawfulEqOrd RequestId where
  eq_of_compare {left right} equal := by
    cases left
    cases right
    exact congrArg RequestId.mk (LawfulEqOrd.eq_of_compare equal)

structure WorkId where
  request : RequestId
  sequence : UInt64
  deriving DecidableEq, Repr

instance : Ord WorkId := ⟨compareLex (compareOn WorkId.request) (compareOn WorkId.sequence)⟩

instance : TransOrd WorkId :=
  inferInstanceAs (TransCmp (compareLex (compareOn WorkId.request) (compareOn WorkId.sequence)))

instance : LawfulEqOrd WorkId where
  eq_of_compare {left right} equal := by
    obtain ⟨request, sequence⟩ := compareLex_eq_eq.mp equal
    have sameRequest : left.request = right.request := LawfulEqOrd.eq_of_compare request
    have sameSequence : left.sequence = right.sequence := LawfulEqOrd.eq_of_compare sequence
    cases left
    cases right
    simp_all

def WorkId.debug (id : WorkId) : String :=
  "WorkId \x7b request: RequestId(" ++ toString id.request.value ++ "), sequence: " ++
    toString id.sequence ++ " \x7d"

inductive WorkLifecycle where
  | queued
  | prepared
  | submitted
  | completing
  | committed
  | abandoned
  | failed
  deriving DecidableEq, Repr

inductive RequestStatus where
  | active
  | finished
  | cancelled
  | deadlineExceeded
  | failed
  deriving DecidableEq, Repr

inductive CancellationCause where
  | explicit
  | deadline
  deriving DecidableEq, Repr

inductive SchedulerError where
  | invalidLimits (values : List Nat)
  | duplicateRequest (id : RequestId)
  | unknownRequest (id : RequestId)
  | capacity (message : String)
  | descriptor (message : String)
  | state (message : String)
  | submission (message : String)
  | completion (message : String)
  | consensus (message : String)
  | distributedCompletion (message : String)
  | poisoned (message : String)
  deriving DecidableEq, Repr

def SchedulerError.toText : SchedulerError → String
  | .invalidLimits values => s!"scheduler limits must be positive, got {values}"
  | .duplicateRequest id => s!"request {id.value} is already registered"
  | .unknownRequest id => s!"request {id.value} is not active"
  | .capacity message => message
  | .descriptor message => s!"work descriptor failed: {message}"
  | .state message => s!"semantic state transaction failed: {message}"
  | .submission message => s!"backend submission failed: {message}"
  | .completion message => s!"exact completion observation failed: {message}"
  | .consensus message => s!"distributed scheduler consensus failed: {message}"
  | .distributedCompletion message => s!"distributed {message}"
  | .poisoned message => s!"scheduler is poisoned after unsafe distributed ordering: {message}"

structure SchedulerLimits where
  maxActiveRequests : Nat
  maxQueuedWork : Nat
  maxNewSubmissionsPerTurn : Nat
  maxInFlightGlobal : Nat
  maxInFlightPerRequest : Nat
  executionSlice : Nat
  deriving DecidableEq, Repr

/-- `SchedulerLimits::with_execution_bounds`: every bound must be positive. -/
def SchedulerLimits.withExecutionBounds (maxActiveRequests maxQueuedWork maxNewSubmissionsPerTurn
    maxInFlightGlobal maxInFlightPerRequest executionSlice : Nat) :
    Except SchedulerError SchedulerLimits :=
  let values := [maxActiveRequests, maxQueuedWork, maxNewSubmissionsPerTurn, maxInFlightGlobal,
    maxInFlightPerRequest, executionSlice]
  if values.contains 0 then
    .error (.invalidLimits values)
  else
    .ok { maxActiveRequests, maxQueuedWork, maxNewSubmissionsPerTurn, maxInFlightGlobal,
          maxInFlightPerRequest, executionSlice }

section Containers

variable (W S B O : Type)

structure Queued where
  id : WorkId
  work : W
  deadline : Option Nat

/-- Canonical state of an active request, its next sequence number and its queue. -/
structure Request where
  state : S
  next : UInt64
  pending : List (Queued W)

structure Prepared where
  id : WorkId
  work : W
  descriptor : List UInt32
  branch : B
  deadline : Option Nat

/-- What happens to submitted work once its completion resolves. -/
inductive Disposition where
  | publish
  | abandon (cancelledAt : Nat)
  | fail
  deriving DecidableEq, Repr

structure Submitted where
  id : WorkId
  work : W
  branch : B
  output : O
  disposition : Disposition

structure SchedulerProgress where
  newlySubmitted : Nat := 0
  committed : List (WorkId × W × O) := []
  failed : List (WorkId × SchedulerError) := []

structure Scheduler where
  limits : SchedulerLimits
  requests : TreeMap RequestId (Request W S) := ∅
  terminal : TreeMap RequestId RequestStatus := ∅
  ready : List RequestId := []
  prepared : List (Prepared W B) := []
  submitted : List (Submitted W B O) := []
  lifecycle : TreeMap WorkId WorkLifecycle := ∅
  acceptedWork : Nat := 0
  peakAcceptedWork : Nat := 0
  peakInFlightWork : Nat := 0
  submittedWork : Nat := 0
  completedWork : Nat := 0
  failedWork : Nat := 0
  discardedWork : Nat := 0
  cancellationBeforeSubmission : Nat := 0
  cancellationAfterSubmission : Nat := 0
  abandonedReleasedWork : Nat := 0
  peakAbandonedRetainedResources : Nat := 0
  lastCancellationToRelease : Option Nat := none
  maxCancellationToRelease : Option Nat := none
  finishedRequests : Nat := 0
  cancelledRequests : Nat := 0
  deadlineExpiredRequests : Nat := 0
  drainCycles : Nat := 0
  observedBackends : TreeSet String := ∅
  allOutputsPreemptible : Bool := true
  poisoned : Option String := none

end Containers

def Disposition.isPublish : Disposition → Bool
  | .publish => true
  | .abandon _ => false
  | .fail => false

@[simp] theorem Disposition.isPublish_iff {disposition : Disposition} :
    disposition.isPublish = true ↔ disposition = .publish := by
  cases disposition <;> simp [isPublish]

def Disposition.lifecycle : Disposition → WorkLifecycle
  | .publish => .submitted
  | .abandon _ => .abandoned
  | .fail => .failed

end Eredu.Scheduling
