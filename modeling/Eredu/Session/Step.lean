import Eredu.Session.Driver

/-!
# One forward step of a distributed text session

A step allocates a commit epoch, checkpoints the model state, has the driver run the
model and commits. The ranks vote after every stage.
-/

namespace Eredu.Session

open Participant

variable {μ χ φ ω O E T α : Type} (rank : Rank μ χ φ ω O E T)

variable (unagreed : Bool) (epoch : Nat) (checkpoint : χ)

def restoreState : SessionM μ ω E T (Except (SessionError E) Unit) :=
  act fun state =>
    let restored := rank.restoreState checkpoint (state.model, state.world)
    (restored.1.mapError .mechanism,
      { state with
        model := restored.2.1
        world := restored.2.2
        trace := .restoring restored.1.toBool :: state.trace })

def recordSuccessfulRestoration (restored : Except (SessionError E) Unit) : SessionM μ ω E T Unit :=
  match restored with
  | .error cause => throw cause
  | .ok () =>
    modify fun state =>
      { state with
        successfulStateRestorations :=
          state.successfulStateRestorations.bind fun value =>
            if value + 1 < 2 ^ 64 then some (value + 1) else none }

def restoreFailedWork : SessionM μ ω E T Unit := do
  let restored ← restoreState rank checkpoint
  modify State.takeAborted
  recordSuccessfulRestoration restored

def rollbackFailure (cause : SessionError E) : SessionM μ ω E T α := do
  restoreFailedWork rank checkpoint
  throw cause

def checkpointObservedState : SessionM μ ω E T χ := do
  let checkpoint ← act fun state =>
    let captured := rank.checkpointState state.model state.world
    (captured.1.mapError SessionError.mechanism,
      { state with
        world := captured.2
        trace := if captured.1.toBool then .checkpointed :: state.trace else state.trace })
  match ← ballot rank .vote .stateCheckpoint checkpoint
      (.contract "another rank failed to capture its distributed state checkpoint") with
  | .ok checkpoint => return checkpoint
  | .error cause => abortWithoutRollback cause

def askObserver (preparing : Bool) : SessionM μ ω E T (Except (SessionError E) Unit) :=
  if preparing && !rank.exactCompletionAvailable then
    pure (.error (.contract "transactional observation requires exact completion support"))
  else if preparing then
    callWorld .architecture (rank.prepareTransaction epoch)
  else
    callWorld .architecture (rank.coordinateTransaction epoch)

/-- One turn of the loop over the observer's preparation and its coordination. -/
def admitObserver (phase : Phase) (preparing : Bool) : SessionM μ ω E T Unit := do
  let prepared ← askObserver rank epoch preparing
  match ← ballot rank .own phase prepared
      (.contract s!"another rank rejected observation at {phase.debug}") with
  | .ok () => return ()
  | .error cause => throw cause

/-- The votes of `prepare_observation_transaction`. All ranks take part in the first, even if their
observer is absent. -/
def agreeParticipation : SessionM μ ω E T Unit := do
  let absent ← agreeDistributedPhase rank .observationParticipation !rank.transactional
  match absent with
  | .error cause => throw cause
  | .ok true => return ()
  | .ok false =>
    let present ← agreeDistributedPhase rank .observationParticipationRequired rank.transactional
    match present with
    | .error cause => throw cause
    | .ok present =>
      if !present || !rank.transactional || unagreed then
        throw (.contract "transactional observation requires agreeing participation on every rank")
      else
        admitObserver rank epoch .observationPreparation true
        admitObserver rank epoch .observationCoordination false

def prepareObservationTransaction : SessionM μ ω E T Unit := do
  match ← attempt (agreeParticipation rank unagreed epoch) with
  | .ok () => return ()
  | .error cause => abortWithoutRollback (.beforeStateMutation cause)

variable (output : O)

def observeOutput (context : φ) : SessionM μ ω E T (Except (SessionError E) O) :=
  if rank.outputScored context then callWorld id (rank.observeOutput output) else pure (.ok output)

def executeInputResultBeforePublication : SessionM μ ω E T (O × χ × φ) := do
  let epoch ← beginCommitEpoch
  match ← ballot rank .own .inputPreparation (rank.input.mapError .architecture)
      (.contract "another rank rejected input preparation") with
  | .error cause => abortWithoutRollback (.beforeStateMutation cause)
  | .ok () =>
    prepareObservationTransaction rank unagreed epoch
    let checkpoint ← checkpointObservedState rank
    let execution ← driveForward rank
    match ← ballot rank .own .execution execution (.remotePhaseFailure .execution) with
    | .error cause => rollbackFailure rank checkpoint cause
    | .ok (output, context) =>
      let observation ← observeOutput rank output context
      match ← ballot rank .vote .outputObservation observation
          (.contract "another rank failed during distributed output observation") with
      | .error cause => rollbackFailure rank checkpoint cause
      | .ok output => return (output, checkpoint, context)

def publishObservedOutputTransaction (checkpoint : χ) (context : φ) :
    SessionM μ ω E T (O × χ × φ) := do
  let publication ← callWorld id (rank.publishObservedOutput output)
  match ← ballot rank .own .outputPublication publication
      (.contract "another rank failed during distributed output publication") with
  | .error cause => rollbackFailure rank checkpoint cause
  | .ok output => return (output, checkpoint, context)

def deliverObservation : SessionM μ ω E T Unit := do
  if rank.transactional then
    let delivered ← callWorld .architecture (rank.completeTransaction epoch)
    match ← ballot rank .own .observationDelivery delivered
        (.contract "another rank rejected completed observation delivery") with
    | .error cause => rollbackFailure rank checkpoint cause
    | .ok () => return ()
  else
    return ()

def commitAfterCompletion : SessionM μ ω E T CommitOutcome :=
  (ask (Round.commit epoch) () : SessionM μ ω E T (Verdict T (.commit epoch)))

def applyCommitOutcome (outcome : CommitOutcome) : SessionM μ ω E T Unit :=
  if outcome.epoch = epoch then
    match outcome with
    | .committed _ => modify (State.conclude (.committed epoch))
    | .aborted _ => do
      modify (State.conclude (.aborted epoch))
      let restored ← restoreState rank checkpoint
      recordSuccessfulRestoration restored
      throw (.commitAborted epoch)
    | .indeterminate _ phase => do
      modify (State.conclude (.indeterminate epoch phase))
      throw (.commitIndeterminate epoch phase)
  else
    rollbackFailure rank checkpoint
      (.contract s!"distributed commit returned epoch {outcome.epoch} for active epoch {epoch}")

def commitObservationTransaction : SessionM μ ω E T Unit := do
  match (← get).activeCommitEpoch with
  | none => throw (.contract "distributed transaction lost its active commit epoch")
  | some epoch =>
    deliverObservation rank epoch checkpoint
    let outcome ← commitAfterCompletion epoch
    applyCommitOutcome rank epoch checkpoint outcome

def completeOutput : SessionM μ ω E T (Except (SessionError E) Unit) :=
  if rank.completeTextPrefill || rank.exactCompletion || rank.transactional then
    act fun state =>
      let completed := rank.complete output state.model state.world
      (completed.1.mapError .mechanism, { state with world := completed.2 })
  else pure (.ok ())

/-- `publish_with_context` without a required completion or retained values. -/
def publish (checkpoint : χ) : SessionM μ ω E T O := do
  let completion ← completeOutput rank output
  match ← ballot rank .vote .mechanismCompletion completion
      (.contract "another rank failed during distributed mechanism completion") with
  | .error cause => rollbackFailure rank checkpoint cause
  | .ok () =>
    commitObservationTransaction rank checkpoint
    return output

/-- `finish` of the guard: a transactional observer learns how its transaction ended. -/
def finishGuard (committed : Bool) : SessionM μ ω E T Unit :=
  if rank.transactional then
    modify fun state => { state with world := rank.finishTransaction epoch committed state.world }
  else pure ()

def withObservationTransaction (operation : SessionM μ ω E T α) : SessionM μ ω E T α := do
  let state ← get
  let result ← attempt operation
  finishGuard rank state.nextCommitEpoch result.toBool
  match result with
  | .ok value => return value
  | .error cause => throw cause

def executeInputResultWithObserver : SessionM μ ω E T (O × χ × φ) := do
  let (output, checkpoint, context) ← executeInputResultBeforePublication rank unagreed
  publishObservedOutputTransaction rank output checkpoint context

def sequenceOutputWithObserver : SessionM μ ω E T O :=
  withObservationTransaction rank do
    let (output, checkpoint, _) ← executeInputResultWithObserver rank unagreed
    publish rank output checkpoint

def requireInputResultAgreement (required : Bool) : SessionM μ ω E T Unit :=
  if required && unagreed then do
    let _ ← beginCommitEpoch
    abortWithoutRollback (.beforeStateMutation (.contract
      "fallible partitioned input requires bounded all-rank preparation agreement"))
  else pure ()

def selectTextOutput : SessionM μ ω E T (Except (SessionError E) O) :=
  match rank.indexTextOutput with
  | some index => callWorld .mechanism (index output)
  | none => pure (.ok output)

/-- `decode_input_result_transaction` and `prefill_input_result_transaction`. -/
def inputResultTransaction (required : Bool) : SessionM μ ω E T O :=
  withObservationTransaction rank do
    requireInputResultAgreement unagreed required
    let (output, checkpoint, _) ← executeInputResultWithObserver rank unagreed
    match ← selectTextOutput rank output with
    | .error cause => rollbackFailure rank checkpoint cause
    | .ok output => publish rank output checkpoint

inductive Entry where
  | sequenceOutput
  | inputResult (required : Bool)

def step : Entry → SessionM μ ω E T O
  | .sequenceOutput => sequenceOutputWithObserver rank unagreed
  | .inputResult required => inputResultTransaction rank unagreed required

end Eredu.Session
