import Eredu.Scheduling.Machine

/-!
# Preparation, submission, completion and whole turns

The phases of a scheduling turn in `scheduler.rs`: round-robin preparation of
branches, submission of the prepared prefix, resolution of exact completions, and
the local and distributed turns composed of them.
-/

namespace Eredu.Scheduling

open Std Effect

variable {Ω W S B O : Type}
variable (env : Environment Ω W S B O) (s : Scheduler W S B O)

/-- Whether a ready request may branch now: it has no branch, or its state permits several, and the
per-request bound leaves room. -/
def canBranch (request : RequestId) : Bool :=
  let branches := s.branchCount request
  (s.requests[request]?.any fun entry => branches = 0 || env.permitsParallelBranches entry.state) &&
  branches < s.limits.maxInFlightPerRequest

/-- Rotates the ready queue to the first request that can branch and takes it out. The scan stops
when every request of the queue stalled in a row: `attempts` is the queue length less the number of
stalls so far. -/
def selectReady (s : Scheduler W S B O) :
    Nat → List RequestId → Option RequestId × List RequestId
  | 0, ready => (none, ready)
  | _ + 1, [] => (none, [])
  | attempts + 1, request :: rest =>
      if canBranch env s request then (some request, rest)
      else selectReady s attempts (rest ++ [request])

/-- The descriptor of queued work and a branch of the request's canonical state, or the error that
fails the work. -/
def describeAndBranch (limits : SchedulerLimits) (queued : Queued W) (state : S)
    (world : Ω) : Except SchedulerError (List UInt32 × B) × Ω :=
  let slice := env.executionSliceSize queued.work
  if slice = 0 || limits.executionSlice < slice then
    (.error (.descriptor (s!"work {queued.id.debug} execution slice {slice} exceeds configured " ++
      s!"bound {limits.executionSlice}")), world)
  else
    match env.encodeDescriptor queued.work world with
    | (.error error, world) => (.error (.descriptor error), world)
    | (.ok descriptor, world) =>
        match env.branch state world with
        | (.error error, world) => (.error (.state error), world)
        | (.ok branch, world) => (.ok (descriptor, branch), world)

/-- One pass of the preparation loop. Returns `false` when no ready request can branch. -/
def prepareNext (now : Nat) : Op Ω W S B O Bool := do
  let s := (← get).scheduler
  match selectReady env s s.ready.length s.ready with
  | (none, ready) => do
      modify fun m => m.update fun s => { s with ready }
      pure false
  | (some request, ready) =>
      match s.requests[request]? with
      | some { state, next, pending := queued :: pending } => do
          modify fun m => m.update fun s => { s with
            requests := s.requests.insert request { state, next, pending }
            ready := if pending.isEmpty then ready else ready ++ [request] }
          let outcome ← apply fun m =>
            let (outcome, world) := describeAndBranch env m.scheduler.limits queued state m.world
            (outcome, { m with world })
          match outcome with
          | .error error => do
              modify (failBeforeSubmission env queued.id now)
              fail error
          | .ok (descriptor, branch) => do
              modify fun m => { m with
                scheduler := { m.scheduler.setLifecycle queued.id .prepared with
                  prepared := m.scheduler.prepared ++
                    [{ id := queued.id, work := queued.work, descriptor, branch,
                       deadline := queued.deadline }] }
                history := .branched queued.id state :: m.history }
              pure true
      | _ => abort "ready request owns queued work"

/-- Prepares at most the given number of branches and returns how many were prepared. -/
def prepareMany (now : Nat) : Nat → Op Ω W S B O Nat
  | 0 => pure 0
  | remaining + 1 => do
      if ← prepareNext env now then
        let count ← prepareMany now remaining
        pure (count + 1)
      else
        pure 0

def prepareBounded (limit now : Nat) : Op Ω W S B O Nat := do
  ensureReady
  if limit = 0 then
    fail (.capacity "scheduler preparation bound must be positive")
  else
    expireDeadlines env now
    prepareMany env now limit

def submissionCapacity : Nat :=
  min (s.limits.maxInFlightGlobal - s.submitted.length) s.limits.maxNewSubmissionsPerTurn

variable (prepared : Prepared W B) (rest : List (Prepared W B))

/-- The bookkeeping after `execute` returned an output for the first prepared entry. -/
def recordSubmission (branch : B) (output : O) (s : Scheduler W S B O) : Scheduler W S B O :=
  let submitted := s.submitted ++
    [{ id := prepared.id, work := prepared.work, branch, output, disposition := .publish }]
  { s.setLifecycle prepared.id .submitted with
    prepared := rest
    submitted
    observedBackends := match env.backendName output with
      | none => s.observedBackends
      | some backend => s.observedBackends.insert backend
    allOutputsPreemptible := s.allOutputsPreemptible && env.physicallyPreemptible output
    peakInFlightWork := max s.peakInFlightWork submitted.length }

/-- `error; branch discard also failed: discard` when the discard failed too. -/
def withDiscardError (error : String) : Except String Unit → String
  | .ok () => error
  | .error discard => s!"{error}; branch discard also failed: {discard}"

/-- The bookkeeping after `execute` failed: the branch is discarded, the work and its request fail. -/
def refuseSubmission (branch : B) (now : Nat) (m : Machine Ω W S B O) :
    Except String Unit × Machine Ω W S B O :=
  let (discarded, m) := discard env branch (m.update fun s => { s with prepared := rest })
  let m := m.update fun s => ((s.setLifecycle prepared.id .failed).addFailedWork).releaseAccepted 1
  (discarded, failRequest env prepared.id.request now m)

/-- The submission loop. Every pass takes at least one entry out of the prepared queue, so `passes`
starts as its length. -/
def submitMany (now capacity : Nat) : Nat → Nat → Op Ω W S B O Nat
  | 0, count => pure count
  | passes + 1, count => do
      if capacity ≤ count then
        pure count
      else
        match (← get).scheduler.prepared with
        | [] => pure count
        | prepared :: rest =>
            if deadlinePassed prepared.deadline now then
              cancelInternal env prepared.id.request .deadline now
              submitMany now capacity passes count
            else
              let (outcome, branch) ← apply fun m =>
                let (outcome, world) :=
                  env.execute prepared.id prepared.work prepared.branch m.world
                (outcome, { m with world })
              match outcome with
              | .error error => do
                  let discarded ← apply (refuseSubmission env prepared rest branch now)
                  fail (.submission (withDiscardError error discarded))
              | .ok output => do
                  modify fun m => m.update (recordSubmission env prepared rest branch output)
                  submitMany now capacity passes (count + 1)

def submitPrepared (now : Nat) : Op Ω W S B O Nat := do
  ensureReady
  expireDeadlines env now
  let s := (← get).scheduler
  let count ← submitMany env now (submissionCapacity s) s.prepared.length 0
  modify fun m =>
    let m := if count ≠ 0 then
        m.update fun s => { s with drainCycles := saturatingAdd s.drainCycles 1 }
      else m
    updateAbandonedResourcePeak env m
  pure count

variable (progress : SchedulerProgress W O) (id : WorkId)

namespace SchedulerProgress

def addFailed (error : SchedulerError) : SchedulerProgress W O :=
  { progress with failed := progress.failed ++ [(id, error)] }

def addCommitted (work : W) (output : O) : SchedulerProgress W O :=
  { progress with committed := progress.committed ++ [(id, work, output)] }

end SchedulerProgress

variable (submitted : Submitted W B O)

/-- `resolve_completed` for cancelled work: its resources are released now. -/
def resolveAbandoned (cancelledAt now : Nat) (progress : SchedulerProgress W O)
    (m : Machine Ω W S B O) : SchedulerProgress W O × Machine Ω W S B O :=
  let released (s : Scheduler W S B O) :=
    let latency := now - cancelledAt
    { s.releaseAccepted 1 with
      abandonedReleasedWork := saturatingAdd s.abandonedReleasedWork 1
      lastCancellationToRelease := some latency
      maxCancellationToRelease := some (s.maxCancellationToRelease.elim latency (max · latency)) }
  match discard env submitted.branch m with
  | (.ok (), m) => (progress, m.update released)
  | (.error error, m) =>
      (progress.addFailed submitted.id
        (.state s!"failed to discard abandoned state branch: {error}"),
        m.update fun s => released ((s.setLifecycle submitted.id .failed).addFailedWork))

/-- `resolve_completed` for publishable work whose request is gone. -/
def resolveOrphaned (progress : SchedulerProgress W O) (m : Machine Ω W S B O) :
    SchedulerProgress W O × Machine Ω W S B O :=
  match discard env submitted.branch m with
  | (.ok (), m) =>
      (progress, m.update fun s => (s.setLifecycle submitted.id .abandoned).releaseAccepted 1)
  | (.error error, m) =>
      (progress.addFailed submitted.id
        (.state s!"failed to discard unpublished state branch: {error}"),
        m.update fun s => ((s.setLifecycle submitted.id .failed).addFailedWork).releaseAccepted 1)

/-- `resolve_completed` for publishable work of an active request. -/
def resolvePublished (entry : Request W S) (now : Nat) (progress : SchedulerProgress W O)
    (m : Machine Ω W S B O) : SchedulerProgress W O × Machine Ω W S B O :=
  let ((outcome, state), world) := env.commitBranch entry.state submitted.branch m.world
  let request := submitted.id.request
  let m := { m with
    scheduler := { m.scheduler with
      requests := m.scheduler.requests.insert request { entry with state } }
    world
    history := .committed submitted.id entry.state state outcome.isOk :: m.history }
  match outcome with
  | .error error =>
      let m := m.update fun s =>
        ((s.setLifecycle submitted.id .failed).addFailedWork).releaseAccepted 1
      (progress.addFailed submitted.id (.state error), failRequest env request now m)
  | .ok () =>
      (progress.addCommitted submitted.id submitted.work submitted.output,
        m.update fun s =>
          { (s.setLifecycle submitted.id .committed).releaseAccepted 1 with
            completedWork := saturatingAdd s.completedWork 1 })

variable (now : Nat) (progress : SchedulerProgress W O) (m : Machine Ω W S B O)

/-- `resolve_completed` for globally failed work. -/
def resolveFailed : SchedulerProgress W O × Machine Ω W S B O :=
  let (discarded, m) := discard env submitted.branch m
  let m := m.update fun s => (s.setLifecycle submitted.id .failed).releaseAccepted 1
  (progress.addFailed submitted.id (.distributedCompletion
      (withDiscardError "backend completion failed on at least one rank" discarded)),
    failRequest env submitted.id.request now m)

def resolveCompleted : SchedulerProgress W O × Machine Ω W S B O :=
  match submitted.disposition with
  | .abandon cancelledAt => resolveAbandoned env submitted cancelledAt now progress m
  | .publish =>
      let m := m.update (·.setLifecycle submitted.id .completing)
      match m.scheduler.requests[submitted.id.request]? with
      | none => resolveOrphaned env submitted progress m
      | some entry => resolvePublished env submitted entry now progress m
  | .fail => resolveFailed env submitted now progress m

def resolveUnobservable (error : String) (now : Nat) (progress : SchedulerProgress W O)
    (m : Machine Ω W S B O) : SchedulerProgress W O × Machine Ω W S B O :=
  let (discarded, m) := discard env submitted.branch m
  let m := m.update fun s =>
    let s := s.setLifecycle submitted.id .failed
    let s := if submitted.disposition = .fail then s else s.addFailedWork
    s.releaseAccepted 1
  (progress.addFailed submitted.id (.completion (withDiscardError error discarded)),
    failRequest env submitted.id.request now m)

/-- What one pass of a completion loop does with an entry: the entry it retains, if any. -/
abbrev Settle (Ω W S B O α : Type) : Type :=
  α → SchedulerProgress W O → Machine Ω W S B O →
    (Option (Submitted W B O) × SchedulerProgress W O) × Machine Ω W S B O

/-- The completion loop over the entries taken out of the submitted list. Returns those retained. -/
def settleEach {α : Type} (settle : Settle Ω W S B O α) :
    List α → SchedulerProgress W O → Machine Ω W S B O →
      (List (Submitted W B O) × SchedulerProgress W O) × Machine Ω W S B O
  | [], progress, m => (([], progress), m)
  | item :: rest, progress, m =>
      let ((kept, progress), m) := settle item progress m
      let ((retained, progress), m) := settleEach settle rest progress m
      ((kept.toList ++ retained, progress), m)

def resolved {Ω : Type} (outcome : SchedulerProgress W O × Machine Ω W S B O) :
    (Option (Submitted W B O) × SchedulerProgress W O) ×
      Machine Ω W S B O :=
  ((none, outcome.1), outcome.2)

def settleLocal : Settle Ω W S B O (Submitted W B O) :=
  fun submitted progress m =>
    let (observed, world) := env.isComplete submitted.output m.world
    let m := { m with world }
    match observed with
    | .ok false => ((some submitted, progress), m)
    | .ok true => resolved (resolveCompleted env submitted now progress m)
    | .error error => resolved (resolveUnobservable env submitted error now progress m)

/-- A pass of `poll_distributed`, with the resolution the ranks agreed on. -/
def settleDistributed : Settle Ω W S B O (Submitted W B O × CompletionResolution) :=
  fun (work, resolution) progress m =>
    match resolution with
    | .incomplete => ((some work, progress), m)
    | .complete => resolved (resolveCompleted env work now progress m)
    | .failedPending =>
        if work.disposition = .fail then
          ((some work, progress), m)
        else
          ((some { work with disposition := .fail }, progress),
            m.update fun s => (s.setLifecycle work.id .failed).addFailedWork)
    | .failedComplete =>
        if work.disposition = .fail then
          resolved (resolveCompleted env work now progress m)
        else
          resolved (resolveCompleted env { work with disposition := .fail } now progress
            (m.update (·.addFailedWork)))

def abandonOrphans (retained : List (Submitted W B O))
    (s : Scheduler W S B O) : Scheduler W S B O :=
  Scheduler.abandonPublished { s with submitted := retained }
    (fun request => !s.requests.contains request) now

def settleAll {α : Type} (settle : Settle Ω W S B O α) (items : List α)
    (now : Nat) (m : Machine Ω W S B O) :
    SchedulerProgress W O × Machine Ω W S B O :=
  let ((retained, progress), m) :=
    settleEach settle items {} (m.update fun s => { s with submitted := [] })
  (progress, updateAbandonedResourcePeak env (m.update (abandonOrphans now retained)))

def pollCompletions : SchedulerProgress W O × Machine Ω W S B O :=
  settleAll env (settleLocal env now) m.scheduler.submitted now m

def observe (work : Submitted W B O) (world : Ω) : LocalCompletion × Ω :=
  match env.isComplete work.output world with
  | (.ok false, world) => ((work.id, .incomplete, Vector.replicate 8 0), world)
  | (.error _, world) => ((work.id, .failed, Vector.replicate 8 0), world)
  | (.ok true, world) =>
      match env.encodeDistributedOutput work.output world with
      | (.ok descriptor, world) => ((work.id, .complete, env.outputDigest descriptor), world)
      | (.error _, world) => ((work.id, .failed, Vector.replicate 8 0), world)

def observeAll : List (Submitted W B O) → Ω → List LocalCompletion × Ω
  | [], world => ([], world)
  | work :: rest, world =>
      let (completion, world) := observe env work world
      let (completions, world) := observeAll rest world
      (completion :: completions, world)

variable (protocol : UInt64)

def pollDistributed (now : Nat) : Op Ω W S B O (SchedulerProgress W O) := do
  let completions ← apply fun m =>
    let (completions, world) := observeAll env m.scheduler.submitted m.world
    (completions, { m with world })
  match ← consult (resolveOutputCompletionsBounded env.transport protocol completions) with
  | .error error => poisonWith env error now
  | .ok resolutions =>
      apply fun m =>
        settleAll env (settleDistributed env now) (m.scheduler.submitted.zip resolutions) now m

def runLocalTurn : Op Ω W S B O (SchedulerProgress W O) := do
  ensureReady
  let progress ← apply (pollCompletions env now)
  let _ ← prepareBounded env (← get).scheduler.limits.maxNewSubmissionsPerTurn now
  let newlySubmitted ← submitPrepared env now
  let afterSubmit ← apply (pollCompletions env now)
  pure { newlySubmitted
         committed := progress.committed ++ afterSubmit.committed
         failed := progress.failed ++ afterSubmit.failed }

def submissionPlan (s : Scheduler W S B O) : List ScheduledWork :=
  (s.prepared.take (submissionCapacity s)).map fun work =>
    { id := work.id, descriptor := work.descriptor }

def submitAgreed (now : Nat) : Op Ω W S B O Nat := do
  let s := (← get).scheduler
  let plan := submissionPlan s
  let submissionCycle := UInt64.ofNat s.drainCycles
  match ← consult (validateScheduleBounded env.transport plan submissionCycle protocol) with
  | .error error => poisonWith env error now
  | .ok () => do
      let before := s.submitted.length
      let submission ← attempt (submitPrepared env now)
      let locallySubmitted := (← get).scheduler.submitted.length - before
      match ← consult (agreeSubmissionStatusBounded env.transport protocol submissionCycle
        plan.length locallySubmitted submission.isOk) with
      | .ok true =>
          match submission with
          | .ok count => pure count
          | .error _ => abort "topology-wide successful submission retains the local count"
      | .ok false => do
          let reason := "backend submission failed or diverged on at least one rank"
          modify (poison env reason now)
          fail (.distributedCompletion reason)
      | .error error => do
          let reason := match submission with
            | .ok _ => error.toText
            | .error submission => s!"{error.toText}; local submission also failed: " ++
                submission.toText
          modify (poison env reason now)
          fail (.consensus reason)

def runDistributedTurn (now : Nat) : Op Ω W S B O (SchedulerProgress W O) := do
  ensureReady
  expireDeadlinesDistributed env protocol now
  let progress ← pollDistributed env protocol now
  let _ ← prepareBounded env (← get).scheduler.limits.maxNewSubmissionsPerTurn now
  let newlySubmitted ← submitAgreed env protocol now
  pure { progress with newlySubmitted }

end Eredu.Scheduling
