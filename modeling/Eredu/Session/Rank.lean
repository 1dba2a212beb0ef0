import Eredu.Foundation.Effect
import Eredu.Foundation.Rounds

/-!
# The ranks of a distributed text session

Every rank of a partitioned model runs the same session code on its own state. At
the points where a rank may fail the ranks vote, so that they go on together or give
up together.

A rank's mechanisms, its executor, its observer and the outside are the functions of
`Rank`. They act on the model state and on a world of the rank's own, so that any
pattern of failures is the pattern of some rank. `State.trace` keeps what the rank
did, the latest first. The code never reads it.
-/

namespace Eredu.Session

open Participant

/-- `DistributedExecutionPhase`, for the phases in which a step or a cache save votes. -/
inductive Phase where
  | inputPreparation
  | observationParticipation
  | observationParticipationRequired
  | observationPreparation
  | observationCoordination
  | observationDelivery
  | stateCheckpoint
  | promptCacheSavePreflight
  | promptCacheSavePreparation
  | promptCacheSavePublication
  | boundarySourceCompletion (route : Nat)
  | boundarySourceReady (route : Nat)
  | execution
  | outputObservation
  | outputPublication
  | mechanismCompletion
  deriving DecidableEq, Repr

def Phase.debug : Phase → String
  | inputPreparation => "InputPreparation"
  | observationParticipation => "ObservationParticipation"
  | observationParticipationRequired => "ObservationParticipationRequired"
  | observationPreparation => "ObservationPreparation"
  | observationCoordination => "ObservationCoordination"
  | observationDelivery => "ObservationDelivery"
  | stateCheckpoint => "StateCheckpoint"
  | promptCacheSavePreflight => "PromptCacheSavePreflight"
  | promptCacheSavePreparation => "PromptCacheSavePreparation"
  | promptCacheSavePublication => "PromptCacheSavePublication"
  | boundarySourceCompletion route =>
    s!"BoundarySourceCompletion(CommunicationRouteId({route}))"
  | boundarySourceReady route => s!"BoundarySourceReady(CommunicationRouteId({route}))"
  | execution => "Execution"
  | outputObservation => "OutputObservation"
  | outputPublication => "OutputPublication"
  | mechanismCompletion => "MechanismCompletion"

inductive CommitPhase where
  | decisionSubmission
  | decisionCompletion
  | decisionObservation
  deriving DecidableEq, Repr

inductive CommitOutcome where
  | committed (epoch : Nat)
  | aborted (epoch : Nat)
  | indeterminate (epoch : Nat) (phase : CommitPhase)
  deriving DecidableEq, Repr

namespace CommitOutcome

def epoch : CommitOutcome → Nat
  | committed epoch | aborted epoch | indeterminate epoch _ => epoch

def isIndeterminate : CommitOutcome → Bool
  | indeterminate _ _ => true
  | _ => false

end CommitOutcome

/-- The next epoch of a session, if a `u64` holds it. -/
def nextEpoch (epoch : Nat) : Option Nat := if epoch + 1 < 2 ^ 64 then some (epoch + 1) else none

inductive SessionError (E : Type) where
  | architecture (cause : E)
  | mechanism (cause : E)
  | partition (cause : E)
  | remotePhaseFailure (phase : Phase)
  | contract (message : String)
  | beforeStateMutation (cause : SessionError E)
  | commitAborted (epoch : Nat)
  | commitIndeterminate (epoch : Nat) (phase : CommitPhase)
  deriving DecidableEq, Repr

inductive Round where
  | vote (phase : Phase)
  | commit (epoch : Nat)
  deriving DecidableEq, Repr

/-- What a rank brings to a round: its local success, or nothing to the commit. -/
abbrev Ballot : Round → Type
  | .vote _ => Bool
  | .commit _ => Unit

abbrev Verdict (T : Type) : Round → Type
  | .vote _ => Except T Bool
  | .commit _ => CommitOutcome

/-- All ranks get the same answer: the conjunction of their local successes or an error, and any
outcome of the commit. -/
def agreement (ι T : Type) : Rounds.Answers ι Ballot (Verdict T)
  | .vote _, ballots, verdict =>
      ∀ agreed, verdict = .ok agreed → (agreed = true ↔ ∀ i, ballots i = true)
  | .commit _, _, _ => True

inductive Act (μ : Type) where
  | accepted (epoch : Nat) (model : μ)
  | entered (phase : Phase)
  | checkpointed
  | ran (before after : μ)
  | restoring (success : Bool)
  | concluded (outcome : CommitOutcome)
  | prepared
  | committed
  | rolledBack
  deriving DecidableEq, Repr

structure State (μ ω : Type) where
  model : μ
  world : ω
  activeCommitEpoch : Option Nat
  nextCommitEpoch : Nat
  lastCommitOutcome : Option CommitOutcome
  controlFence : Option Phase
  successfulStateRestorations : Option Nat
  trace : List (Act μ)

/-- `PartitionBoundaryRoute`: a transfer of activations from one rank to another. -/
structure Route where
  id : Nat
  sourceGroup : Nat
  destinationGroup : Nat
  sourceRank : Nat
  destinationRank : Nat
  deriving DecidableEq

/-- What the driver reads of the partition plan and of the communication manifest. A model that is
not partitioned has no groups here. -/
structure Plan where
  /-- The active groups, in the order in which the schedule starts them. -/
  groups : List Nat
  routes : List Route
  /-- The routes of the manifest, in the waves of `route_submission_waves`. -/
  submissionWaves : List (List Nat)

/-- What the driver asks of the executor and of the boundary transport. -/
inductive Work where
  | begin
  | execute (group wave : Nat)
  | prepare (routes : List Route)
  | transfer (routes : List Route)

/-- What one rank brings to a step: its mechanisms `M`, execution `D`, prepared input and observer. -/
structure Rank (μ χ φ ω O E T : Type) where
  /-- The failure of an agreement round, as this rank reports it. -/
  transport : T → SessionError E
  input : Except E Unit
  checkpointState : μ → Effect.Call ω E χ
  restoreState : χ → Effect.Call (μ × ω) E Unit
  plan : Plan
  participates : Nat → Bool
  work : Work → Effect.Call (μ × ω) (SessionError E) Unit
  finish : Effect.Call (μ × ω) (SessionError E) (O × φ)
  /-- How a failed round reads in a message. -/
  describe : SessionError E → String
  outputScored : φ → Bool
  observeOutput : O → Effect.Call ω (SessionError E) O
  publishObservedOutput : O → Effect.Call ω (SessionError E) O
  indexTextOutput : Option (O → Effect.Call ω E O)
  complete : O → μ → Effect.Call ω E Unit
  completeTextPrefill : Bool
  exactCompletion : Bool
  exactCompletionAvailable : Bool
  transactional : Bool
  prepareTransaction : Nat → Effect.Call ω E Unit
  coordinateTransaction : Nat → Effect.Call ω E Unit
  completeTransaction : Nat → Effect.Call ω E Unit
  finishTransaction : Nat → Bool → ω → ω

section Code

variable {μ χ φ ω O E T α : Type}

namespace State

def note (act : Act μ) (state : State μ ω) : State μ ω := { state with trace := act :: state.trace }

def accept (next : Nat) (state : State μ ω) : State μ ω :=
  { state with
    nextCommitEpoch := next
    activeCommitEpoch := some state.nextCommitEpoch
    trace := .accepted state.nextCommitEpoch state.model :: state.trace }

def takeAborted (state : State μ ω) : State μ ω :=
  match state.activeCommitEpoch with
  | none => state
  | some epoch =>
    { state with
      activeCommitEpoch := none
      lastCommitOutcome := some (.aborted epoch)
      trace := .concluded (.aborted epoch) :: state.trace }

def conclude (outcome : CommitOutcome) (state : State μ ω) : State μ ω :=
  { state with
    activeCommitEpoch := none
    lastCommitOutcome := some outcome
    trace := .concluded outcome :: state.trace }

end State

abbrev SessionM (μ ω E T : Type) : Type → Type :=
  Participant Ballot (Verdict T) (State μ ω) (SessionError E)

def callWorld {E' : Type} (wrap : E' → SessionError E) (operation : Effect.Call ω E' α) :
    SessionM μ ω E T (Except (SessionError E) α) :=
  act fun state =>
    ((operation state.world).1.mapError wrap, { state with world := (operation state.world).2 })

def ensureControlUnfenced : SessionM μ ω E T Unit := do
  match (← get).controlFence with
  | some phase =>
    throw (.contract s!"distributed session is fenced after failed cache control at {phase.debug}")
  | none => pure ()

def ensureCommitResolved : SessionM μ ω E T Unit := do
  ensureControlUnfenced
  match (← get).lastCommitOutcome with
  | some (.indeterminate epoch phase) => throw (.commitIndeterminate epoch phase)
  | _ => pure ()

def beginCommitEpoch : SessionM μ ω E T Nat := do
  ensureCommitResolved
  let state ← get
  if state.activeCommitEpoch.isSome then
    throw (.contract "distributed transaction already has an active commit epoch")
  else
    match nextEpoch state.nextCommitEpoch with
    | none => throw (.contract "distributed commit epoch overflow")
    | some next =>
      modify (State.accept next)
      return state.nextCommitEpoch

def abortWithoutRollback (cause : SessionError E) : SessionM μ ω E T α := do
  modify State.takeAborted
  throw cause

/-- Which of two errors a rank reports when its own work failed and so did the vote. -/
inductive Priority where
  | own
  | vote

/-- What a rank makes of its own result and the vote on it. -/
def Priority.settle (priority : Priority) (peer : SessionError E) :
    Except (SessionError E) α → Except (SessionError E) Bool → Except (SessionError E) α
  | .ok value, .ok true => .ok value
  | .ok _, .ok false => .error peer
  | .ok _, .error cause => .error cause
  | .error cause, .ok _ => .error cause
  | .error cause, .error transport =>
    match priority with
    | .own => .error cause
    | .vote => .error transport

variable (rank : Rank μ χ φ ω O E T)

def agreeDistributedPhase (phase : Phase) (success : Bool) :
    SessionM μ ω E T (Except (SessionError E) Bool) := do
  modify (State.note (.entered phase))
  let verdict ← (ask (Round.vote phase) success :
    SessionM μ ω E T (Verdict T (.vote phase)))
  return verdict.mapError rank.transport

/-- The vote on a result and the match on both, which the stages of a step repeat. The error is the
one a rank reports whose own work succeeded when that of another rank did not. -/
def ballot (priority : Priority) (phase : Phase) (result : Except (SessionError E) α)
    (peer : SessionError E) : SessionM μ ω E T (Except (SessionError E) α) := do
  let agreed ← agreeDistributedPhase rank phase result.toBool
  return priority.settle peer result agreed

end Code

end Eredu.Session
