import Eredu.Scheduling.Consensus

/-!
# The scheduler's operations

`scheduler.rs`, function by function. Infallible methods are functions on the
machine; methods that return a `Result` are `Effect`s, so that the writes made
before an early return stay. The backend, the semantic state and the execute
callback are the fields of an `Environment` over an arbitrary world `Ω`; `W`, `S`,
`B` and `O` are the types of work, of semantic states, of branches and of outputs.
-/

namespace Eredu.Scheduling

open Std Effect

section Outside

variable (Ω W S B O : Type)

/-- The traits the scheduler is generic over and the execute callback of its turns. Operations may
read and change the world, so their failures and their timing are unconstrained. -/
structure Environment where
  executionSliceSize : W → Nat
  encodeDescriptor : W → Ω → Except String (List UInt32) × Ω
  branch : S → Ω → Except String B × Ω
  /-- The state may have changed also when publication fails. -/
  commitBranch : S → B → Ω → (Except String Unit × S) × Ω
  discardBranch : B → Ω → Except String Unit × Ω
  permitsParallelBranches : S → Bool
  execute : WorkId → W → B → Ω → (Except String O × B) × Ω
  isComplete : O → Ω → Except String Bool × Ω
  backendName : O → Option String
  physicallyPreemptible : O → Bool
  retainedResources : O → Ω → Nat
  encodeDistributedOutput : O → Ω → Except String (List UInt32) × Ω
  /-- SHA-256 of the little-endian bytes of the words, as eight little-endian words. -/
  outputDigest : List UInt32 → Vector UInt32 8
  transport : Transport Ω

/-- Observable uses of canonical request state. `committed` records every `commit_branch` call with
the state it was applied to, the state it left and whether it succeeded. -/
inductive Event where
  | registered (request : RequestId) (state : S)
  | accessed (request : RequestId) (state : S)
  | branched (id : WorkId) (state : S)
  | committed (id : WorkId) (before after : S) (success : Bool)
  deriving DecidableEq

/-- The scheduler with its outside and the events so far, the newest first. -/
structure Machine where
  scheduler : Scheduler W S B O
  world : Ω
  history : List (Event S) := []

abbrev Op : Type → Type := Effect (Machine Ω W S B O) SchedulerError

end Outside

variable {Ω W S B O : Type}

def markAll (lifecycle : TreeMap WorkId WorkLifecycle) (ids : List WorkId)
    (stage : WorkLifecycle) : TreeMap WorkId WorkLifecycle :=
  ids.foldl (fun lifecycle id => lifecycle.insert id stage) lifecycle

namespace Scheduler

variable (s : Scheduler W S B O)

def branchCount (request : RequestId) : Nat :=
  (s.prepared.countP fun work => work.id.request = request) +
    s.submitted.countP fun work => work.id.request = request

def setLifecycle (id : WorkId) (stage : WorkLifecycle) : Scheduler W S B O :=
  { s with lifecycle := s.lifecycle.insert id stage }

def addFailedWork : Scheduler W S B O :=
  { s with failedWork := saturatingAdd s.failedWork 1 }

/-- `accepted_work = accepted_work.saturating_sub(count)`. -/
def releaseAccepted (count : Nat) : Scheduler W S B O :=
  { s with acceptedWork := s.acceptedWork - count }

def abandonPublished (selected : RequestId → Bool) (now : Nat) : Scheduler W S B O :=
  let affected (work : Submitted W B O) := selected work.id.request && work.disposition.isPublish
  { s with
    submitted := s.submitted.map fun work =>
      if affected work then { work with disposition := .abandon now } else work
    lifecycle := markAll s.lifecycle ((s.submitted.filter affected).map (·.id)) .abandoned }

end Scheduler

def Machine.update (m : Machine Ω W S B O) (f : Scheduler W S B O → Scheduler W S B O) :
    Machine Ω W S B O :=
  { m with scheduler := f m.scheduler }

variable (env : Environment Ω W S B O)

/-- `branch` discard, keeping the world it leaves. -/
def discard (branch : B) (m : Machine Ω W S B O) : Except String Unit × Machine Ω W S B O :=
  let outcome := env.discardBranch branch m.world
  (outcome.1, { m with world := outcome.2 })

variable (m : Machine Ω W S B O)

def abandonedRetainedResources : Nat :=
  ((m.scheduler.submitted.filter fun work => work.disposition matches .abandon _).map
    fun work => env.retainedResources work.output m.world).sum

def updateAbandonedResourcePeak : Machine Ω W S B O :=
  m.update fun s => { s with
    peakAbandonedRetainedResources :=
      max s.peakAbandonedRetainedResources (abandonedRetainedResources env m) }

/-- Discards the branches of prepared work that leaves the scheduler, in order, and collects the
cleanup errors. A branch whose discard fails is failed work. -/
def discardBranches (stage : WorkLifecycle) :
    List (Prepared W B) → Machine Ω W S B O → List String × Machine Ω W S B O
  | [], m => ([], m)
  | work :: rest, m =>
      match discard env work.branch m with
      | (.ok (), m) => discardBranches stage rest (m.update (·.setLifecycle work.id stage))
      | (.error error, m) =>
          let (errors, m) := discardBranches stage rest
            (m.update fun s => (s.setLifecycle work.id .failed).addFailedWork)
          (s!"work {work.id.debug}: {error}" :: errors, m)

/-- `errors.join("; ")`, absent when nothing failed. -/
def joinErrors (errors : List String) : Option String :=
  if errors.isEmpty then none else some ("; ".intercalate errors)

variable (request : RequestId)

def discardPreparedForRequest (m : Machine Ω W S B O) : (Nat × Option String) × Machine Ω W S B O :=
  let removed := m.scheduler.prepared.filter fun work => work.id.request = request
  let retained := m.scheduler.prepared.filter fun work => work.id.request ≠ request
  let (errors, m) := discardBranches env .abandoned removed m
  ((removed.length, joinErrors errors), m.update fun s => { s with prepared := retained })

/-- The request leaves the active map and the ready queue, and its queued work gets `stage`. -/
def Scheduler.removeRequest (s : Scheduler W S B O) (request : RequestId)
    (entry : Request W S) (stage : WorkLifecycle) : Scheduler W S B O :=
  { s with
    requests := s.requests.erase request
    lifecycle := markAll s.lifecycle (entry.pending.map (·.id)) stage
    ready := s.ready.filter (· ≠ request) }

/-- The part that `finish`, `cancel_internal` and `fail_request` share: the request is removed, its
prepared branches are discarded and the occupancy shrinks by its queued and prepared work. Returns
how many transitions left. -/
def withdrawRequest (entry : Request W S) (stage : WorkLifecycle) (m : Machine Ω W S B O) :
    (Nat × Option String) × Machine Ω W S B O :=
  let ((prepared, discardError), m) :=
    discardPreparedForRequest env request (m.update (·.removeRequest request entry stage))
  let discarded := entry.pending.length + prepared
  ((discarded, discardError), m.update fun s =>
    { s.releaseAccepted discarded with discardedWork := saturatingAdd s.discardedWork discarded })

def failRequest (now : Nat) (m : Machine Ω W S B O) : Machine Ω W S B O :=
  match m.scheduler.requests[request]? with
  | none => m
  | some entry =>
      let m := (withdrawRequest env request entry .failed m).2
      m.update fun s =>
        let s := s.abandonPublished (· = request) now
        { s with terminal := s.terminal.insert request .failed }

def failBeforeSubmission (id : WorkId) (now : Nat) (m : Machine Ω W S B O) : Machine Ω W S B O :=
  failRequest env id.request now
    (m.update fun s => ((s.setLifecycle id .failed).addFailedWork).releaseAccepted 1)

/-- The body of `cancel_internal` once the request is known to be active. -/
def cancelEntry (entry : Request W S) (cause : CancellationCause)
    (now : Nat) (m : Machine Ω W S B O) :
    Option String × Machine Ω W S B O :=
  let ((discarded, discardError), m) := withdrawRequest env request entry .abandoned m
  let m := m.update fun s =>
    let abandoned := s.submitted.countP fun work =>
      work.id.request = request && work.disposition.isPublish
    let s := s.abandonPublished (· = request) now
    { s with
      cancellationBeforeSubmission := saturatingAdd s.cancellationBeforeSubmission discarded
      cancellationAfterSubmission := saturatingAdd s.cancellationAfterSubmission abandoned }
  let m := m.update fun s =>
    match cause with
    | .explicit => { s with
        cancelledRequests := saturatingAdd s.cancelledRequests 1
        terminal := s.terminal.insert request
          (if discardError.isSome then .failed else .cancelled) }
    | .deadline => { s with
        deadlineExpiredRequests := saturatingAdd s.deadlineExpiredRequests 1
        terminal := s.terminal.insert request
          (if discardError.isSome then .failed else .deadlineExceeded) }
  (discardError, updateAbandonedResourcePeak env m)

def fence (reason : String) (m : Machine Ω W S B O) : Machine Ω W S B O :=
  m.update fun s => { s with poisoned := s.poisoned.or (some reason) }

def Scheduler.queuedIds (s : Scheduler W S B O) : List WorkId :=
  s.requests.toList.flatMap fun (_, entry) => entry.pending.map (·.id)

/-- Every active request becomes failed, together with its queued work. -/
def Scheduler.failAllRequests (s : Scheduler W S B O) : Scheduler W S B O :=
  { s with
    requests := ∅
    terminal := s.requests.toList.foldl
      (fun terminal (request, _) => terminal.insert request .failed) s.terminal
    lifecycle := markAll s.lifecycle s.queuedIds .failed
    ready := []
    prepared := [] }

/-- Fails every active request and fences the scheduler. Submitted work stays until it completes. -/
def poison (reason : String) (now : Nat) (m : Machine Ω W S B O) : Machine Ω W S B O :=
  if m.scheduler.poisoned.isSome then m
  else
    let discarded := m.scheduler.queuedIds.length + m.scheduler.prepared.length
    let (errors, m) :=
      discardBranches env .failed m.scheduler.prepared (m.update (·.failAllRequests))
    let m := m.update fun s =>
      let s := { s.releaseAccepted discarded with
        discardedWork := saturatingAdd s.discardedWork discarded }
      let s := s.abandonPublished (fun _ => true) now
      { s with poisoned := some (match joinErrors errors with
        | none => reason
        | some errors => s!"{reason}; prepared branch cleanup failed: {errors}") }
    updateAbandonedResourcePeak env m

def Scheduler.new (limits : SchedulerLimits) : Except SchedulerError (Scheduler W S B O) := do
  let limits ← SchedulerLimits.withExecutionBounds limits.maxActiveRequests limits.maxQueuedWork
    limits.maxNewSubmissionsPerTurn limits.maxInFlightGlobal limits.maxInFlightPerRequest
    limits.executionSlice
  pure { limits }

def ensureReady : Op Ω W S B O Unit := do
  match (← get).scheduler.poisoned with
  | none => pure ()
  | some reason => fail (.poisoned reason)

variable (id : RequestId)

def validateRegistration : Op Ω W S B O Unit := do
  ensureReady
  let s := (← get).scheduler
  if s.requests.contains id || s.terminal.contains id then
    fail (.duplicateRequest id)
  else if s.limits.maxActiveRequests ≤ s.requests.size then
    fail (.capacity s!"scheduler active-request capacity {s.limits.maxActiveRequests} is exhausted")
  else
    pure ()

def register (state : S) : Op Ω W S B O Unit := do
  validateRegistration id
  modify fun m => { m with
    scheduler := { m.scheduler with
      requests := m.scheduler.requests.insert id { state, next := 0, pending := [] } }
    history := .registered id state :: m.history }

/-- `request_state_mut` followed by the caller's use of the returned reference. -/
def requestStateMut (access : S → S) : Op Ω W S B O Unit := do
  ensureReady
  let s := (← get).scheduler
  if s.branchCount id ≠ 0 then
    fail (.state s!"request {id.value} has prepared or submitted state branches")
  else
    match s.requests[id]? with
    | none => fail (.unknownRequest id)
    | some entry =>
        let state := access entry.state
        modify fun m => { m with
          scheduler := { m.scheduler with
            requests := m.scheduler.requests.insert id { entry with state } }
          history := .accessed id state :: m.history }

/-- The queue entries of an accepted batch; `first` is the sequence number of its first item. -/
def batchEntries (request : RequestId) (first : Nat) :
    List (W × Option Nat) → List (Queued W)
  | [] => []
  | (work, deadline) :: rest =>
      { id := ⟨request, UInt64.ofNat first⟩, work, deadline } ::
        batchEntries request (first + 1) rest

/-- Atomically enqueues an ordered batch and returns the identities it was given. -/
def enqueueBatchWithDeadlines (work : List (W × Option Nat)) : Op Ω W S B O (List WorkId) := do
  ensureReady
  let s := (← get).scheduler
  let requested := work.length
  let acceptedAfter := s.acceptedWork + requested
  if usizeMax < acceptedAfter then
    fail (.capacity "scheduler occupancy overflow")
  else if s.limits.maxQueuedWork < acceptedAfter then
    fail (.capacity (s!"scheduler queue capacity {s.limits.maxQueuedWork} cannot accept " ++
      s!"{requested} items with {s.acceptedWork} outstanding"))
  else
    match s.requests[request]? with
    | none => fail (.unknownRequest request)
    | some entry =>
        if u64Max < entry.next.toNat + requested then
          fail (.capacity "work identity space exhausted")
        else
          let batch := batchEntries request entry.next.toNat work
          let ids := batch.map (·.id)
          modify fun m => m.update fun s => { s with
            requests := s.requests.insert request { entry with
              next := UInt64.ofNat (entry.next.toNat + requested)
              pending := entry.pending ++ batch }
            lifecycle := markAll s.lifecycle ids .queued
            ready := if entry.pending.isEmpty && requested ≠ 0 then s.ready ++ [request] else s.ready
            acceptedWork := acceptedAfter
            peakAcceptedWork := max s.peakAcceptedWork acceptedAfter
            submittedWork := saturatingAdd s.submittedWork requested }
          pure ids

def cancelInternal (cause : CancellationCause) (now : Nat) : Op Ω W S B O Unit := do
  ensureReady
  let s := (← get).scheduler
  if s.terminal.contains request then
    fail (.state s!"request {request.value} is already terminal")
  else
    match s.requests[request]? with
    | none => fail (.unknownRequest request)
    | some entry =>
        match ← apply (cancelEntry env request entry cause now) with
        | none => pure ()
        | some error => fail (.state error)

/-- `deadline.is_some_and(|deadline| deadline <= now)`. -/
def deadlinePassed (deadline : Option Nat) (now : Nat) : Bool := deadline.any (· ≤ now)

def expiredRequests (now : Nat) (s : Scheduler W S B O) : TreeSet RequestId :=
  let queued := s.requests.toList.filterMap fun (request, entry) =>
    if entry.pending.any fun work => deadlinePassed work.deadline now then some request else none
  let prepared := s.prepared.filterMap fun work =>
    if deadlinePassed work.deadline now then some work.id.request else none
  TreeSet.ofList (queued ++ prepared)

def expireDeadlines (now : Nat) : Op Ω W S B O Unit := do
  let expired := expiredRequests now (← get).scheduler
  expired.toList.forM fun request => cancelInternal env request .deadline now

def consult {α : Type} (protocol : Effect Ω ConsensusError α) :
    Op Ω W S B O (Except ConsensusError α) :=
  attemptOn (·.world) (fun world m => { m with world }) protocol

/-- Fences the scheduler and returns the consensus error that caused it. -/
def fenceWith {α : Type} (reason : String) : Op Ω W S B O α := do
  modify (fence reason)
  fail (.consensus reason)

def poisonWith {α : Type} (error : ConsensusError) (now : Nat) : Op Ω W S B O α := do
  modify (poison env error.toText now)
  fail (.consensus error.toText)

variable (protocol : UInt64)

/-- One agreed phase of a distributed cancellation; disagreement fences with `refusal`. -/
def agreeDisposition (request : RequestId) (cause : CancellationCause)
    (phase : UInt32) (localReady : Bool) (refusal : String) :
    Op Ω W S B O Unit := do
  match ← consult (agreeDispositionStatusBounded env.transport protocol request cause phase
    localReady) with
  | .error error => fenceWith error.toText
  | .ok false => fenceWith refusal
  | .ok true => pure ()

def cancelAuthorized (cause : CancellationCause) (now : Nat) : Op Ω W S B O Unit := do
  match ← attempt (cancelInternal env request cause now) with
  | .ok () => pure ()
  | .error error => do
      modify (poison env error.toText now)
      fail error

def expireDeadlinesDistributed (now : Nat) : Op Ω W S B O Unit := do
  let s := (← get).scheduler
  let expired := expiredRequests now s
  let candidates := s.requests.keys.map fun request => (request, expired.contains request)
  match ← consult (agreeDeadlineCandidatesBounded env.transport protocol candidates
    s.limits.maxActiveRequests) with
  | .error error => fenceWith error.toText
  | .ok globallyExpired =>
      globallyExpired.forM fun request => do
        agreeDisposition env protocol request .deadline 1
          ((← get).scheduler.requests.contains request)
          "distributed deadline preparation failed on at least one rank"
        agreeDisposition env protocol request .deadline 2
          ((← get).scheduler.requests.contains request)
          "distributed deadline commit authorization failed"
        cancelAuthorized env request .deadline now

/-- `cancel_at`; `cancel` passes the current instant. -/
def cancelAt (now : Nat) : Op Ω W S B O Unit :=
  cancelInternal env request .explicit now

def cancelDistributed (request : RequestId) (now : Nat) : Op Ω W S B O Unit := do
  ensureReady
  let s := (← get).scheduler
  agreeDisposition env protocol request .explicit 1
    (s.requests.contains request && !s.terminal.contains request)
    "distributed cancellation preparation failed on at least one rank"
  agreeDisposition env protocol request .explicit 2 true
    "distributed cancellation commit authorization failed"
  cancelAuthorized env request .explicit now

def finish : Op Ω W S B O Unit := do
  ensureReady
  let s := (← get).scheduler
  if s.submitted.any fun work => work.id.request = request then
    fail (.state s!"request {request.value} still has submitted work")
  else
    match s.requests[request]? with
    | none => fail (.unknownRequest request)
    | some entry =>
        let (_, discardError) ← apply (withdrawRequest env request entry .abandoned)
        modify fun m => m.update fun s => { s with
          terminal := s.terminal.insert request (if discardError.isSome then .failed else .finished)
          finishedRequests := saturatingAdd s.finishedRequests 1 }
        match discardError with
        | none => pure ()
        | some error => fail (.state error)

def release : Op Ω W S B O S := do
  ensureReady
  let s := (← get).scheduler
  match s.requests[request]? with
  | none => fail (.unknownRequest request)
  | some entry =>
      if !entry.pending.isEmpty || s.branchCount request ≠ 0 then
        fail (.state s!"request {request.value} still owns unpublished work")
      else
        modify fun m => m.update fun s => { s with requests := s.requests.erase request }
        pure entry.state

def forgetTerminal : Op Ω W S B O RequestStatus := do
  ensureReady
  let s := (← get).scheduler
  if s.submitted.any fun work => work.id.request = request then
    fail (.state s!"request {request.value} still has retained abandoned work")
  else
    match s.terminal[request]? with
    | none => fail (.unknownRequest request)
    | some status =>
        modify fun m => m.update fun s => { s with terminal := s.terminal.erase request }
        pure status

end Eredu.Scheduling
