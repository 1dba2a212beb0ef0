import Eredu.Session.Story

/-!
# The distributed save of a prompt cache

Every rank that owns cache state prepares the publication of its shard, publishes it
reversibly and, once all ranks have published, commits it. The ranks vote after the
preflight, the preparation and the publication. A rank that fails, or hears that
another one failed, rolls its publication back and fences its session.

A publication that is dropped before it was handed to anyone is rolled back by its
destructor.
-/

namespace Eredu.Session

structure SavingRank (μ ω τ D I E T : Type) where
  /-- The failure of an agreement round, as this rank reports it. -/
  transport : T → SessionError E
  inputIdentity : Option I
  committedPromptInputIdentity : Option I
  validatePromptInputDescriptor : I → Except (SessionError E) Unit
  /-- Whether the rank owns cache state, and an identity for it. -/
  ownsState : Bool
  ownsIdentity : Bool
  promptCacheSelected : Bool
  validatePromptCacheModelIdentity : Except (SessionError E) Unit
  preparePromptCacheSave : Option CommitOutcome → Effect.Call (μ × ω) E τ
  preparedPromptCacheManifest : τ → D
  validateCompatibility : D → Option CommitOutcome → Except (SessionError E) Unit
  publishPromptCacheSave : τ → ω → Except E Unit × τ × ω
  commitPromptCacheSave : τ → ω → ω
  rollbackPromptCacheSave : τ → ω → ω
  dropPromptCacheSave : τ → ω → ω

section Code

variable {μ ω τ D I E T α : Type} (rank : SavingRank μ ω τ D I E T) [DecidableEq I] (phase : Phase)

/-- Fences the session after a failure in a phase of cache control. -/
def State.fenceAt (state : State μ ω) : State μ ω :=
  { state with controlFence := some phase }

def agreeCacheControlPhase (success : Bool) : SessionM μ ω E T (Except (SessionError E) Bool) := do
  modify (State.note (.entered phase))
  let verdict ← (Participant.ask (Round.vote phase) success :
    SessionM μ ω E T (Verdict T (.vote phase)))
  match verdict with
  | .ok agreed => return .ok agreed
  | .error cause =>
    modify (State.fenceAt phase)
    return .error (rank.transport cause)

def fenceRemoteCacheControlFailure : SessionM μ ω E T α := do
  modify (State.fenceAt phase)
  throw (.contract s!"another rank failed distributed cache control at {phase.debug}")

def requireCacheControlAgreement (unagreed : Bool) : SessionM μ ω E T Unit :=
  if unagreed then
    throw (.contract "partitioned cache control requires the selected bounded failure agreement")
  else pure ()

def validateInputIdentity : Except (SessionError E) Unit :=
  match rank.inputIdentity with
  | none => .ok ()
  | some identity => do
    rank.validatePromptInputDescriptor identity
    if rank.committedPromptInputIdentity ≠ some identity then
      throw (.contract "prompt-cache prepared-input identity differs from the committed prompt")

def ownsShard : Except (SessionError E) Bool :=
  match rank.ownsState, rank.ownsIdentity with
  | true, true => do
    if !rank.promptCacheSelected then
      throw (.contract "prompt-cache persistence was not selected for this session")
    rank.validatePromptCacheModelIdentity
    return true
  | false, false => .ok false
  | _, _ => .error (.contract "partition cache state and rank-local identity ownership disagree")

def preflight : Except (SessionError E) Bool := do
  validateInputIdentity rank
  ownsShard rank

def settleTransaction (act : Act μ) (operation : ω → ω) (state : State μ ω) : State μ ω :=
  { state with world := operation state.world, trace := act :: state.trace }

def rollbackTransaction (transaction : τ) : SessionM μ ω E T Unit :=
  modify (settleTransaction .rolledBack (rank.rollbackPromptCacheSave transaction))

/-- The staged publication of a rank that owns state. One that does not fit the descriptor is
dropped. -/
def prepareSave : SessionM μ ω E T (Except (SessionError E) τ) := do
  let state ← get
  let prepared ← Participant.act fun state =>
    let result := rank.preparePromptCacheSave state.lastCommitOutcome (state.model, state.world)
    (result.1,
      { state with
        model := result.2.1
        world := result.2.2
        trace := if result.1.toBool then .prepared :: state.trace else state.trace })
  match prepared with
  | .error cause => return .error (.mechanism cause)
  | .ok transaction =>
    match rank.validateCompatibility (rank.preparedPromptCacheManifest transaction)
        state.lastCommitOutcome with
    | .ok () => return .ok transaction
    | .error cause =>
      modify (settleTransaction .rolledBack (rank.dropPromptCacheSave transaction))
      return .error cause

def prepareTransaction (owning : Bool) : SessionM μ ω E T (Option (Except (SessionError E) τ)) :=
  if owning then do
    let prepared ← prepareSave rank
    return some prepared
  else return none

variable (transaction : Option τ)

def publishTransaction : SessionM μ ω E T (Option τ × Option (Except E Unit)) :=
  match transaction with
  | none => return (none, none)
  | some transaction =>
    Participant.act fun state =>
      let result := rank.publishPromptCacheSave transaction state.world
      ((some result.2.1, some result.1), { state with world := result.2.2 })

def agreePreparation (transaction : Option (Except (SessionError E) τ))
    (agreement : Except (SessionError E) Bool) : SessionM μ ω E T (Option τ) := do
  let phase := Phase.promptCacheSavePreparation
  match transaction, agreement with
  | some (.ok transaction), .ok true => return some transaction
  | none, .ok true => return none
  | some (.ok transaction), .ok false =>
    rollbackTransaction rank transaction
    fenceRemoteCacheControlFailure phase
  | none, .ok false => fenceRemoteCacheControlFailure phase
  | some (.ok transaction), .error cause =>
    rollbackTransaction rank transaction
    throw cause
  | none, .error cause => throw cause
  | some (.error cause), _ =>
    modify (State.fenceAt phase)
    throw cause

def rollbackAny : SessionM μ ω E T Unit :=
  match transaction with
  | some transaction => rollbackTransaction rank transaction
  | none => return ()

def agreePublication (publication : Option (Except E Unit))
    (agreement : Except (SessionError E) Bool) : SessionM μ ω E T Unit := do
  let phase := Phase.promptCacheSavePublication
  match publication, agreement with
  | some (.error cause), _ =>
    rollbackAny rank transaction
    modify (State.fenceAt phase)
    throw (.mechanism cause)
  | _, .error cause =>
    rollbackAny rank transaction
    throw cause
  | _, .ok true => return ()
  | _, .ok false =>
    rollbackAny rank transaction
    fenceRemoteCacheControlFailure phase

def agreePreflight (result : Except (SessionError E) Bool)
    (agreement : Except (SessionError E) Bool) : SessionM μ ω E T Bool := do
  let phase := Phase.promptCacheSavePreflight
  match result, agreement with
  | .ok owning, .ok true => return owning
  | .ok _, .ok false => fenceRemoteCacheControlFailure phase
  | .ok _, .error cause => throw cause
  | .error cause, _ =>
    modify (State.fenceAt phase)
    throw cause

def commitTransaction : SessionM μ ω E T (Option D) :=
  match transaction with
  | none => return none
  | some transaction => do
    modify (settleTransaction .committed (rank.commitPromptCacheSave transaction))
    return some (rank.preparedPromptCacheManifest transaction)

def passPreflight : SessionM μ ω E T Bool := do
  let agreement ← agreeCacheControlPhase rank .promptCacheSavePreflight (preflight rank).toBool
  agreePreflight (preflight rank) agreement

def passPreparation (owning : Bool) : SessionM μ ω E T (Option τ) := do
  let transaction ← prepareTransaction rank owning
  let agreement ← agreeCacheControlPhase rank .promptCacheSavePreparation
    (transaction.all Except.toBool)
  agreePreparation rank transaction agreement

def passPublication : SessionM μ ω E T (Option τ) := do
  let published ← publishTransaction rank transaction
  let agreement ← agreeCacheControlPhase rank .promptCacheSavePublication
    (published.2.all Except.toBool)
  agreePublication rank published.1 published.2 agreement
  return published.1

def savePromptCacheDistributedInner (unagreed : Bool) : SessionM μ ω E T (Option D) := do
  ensureCommitResolved
  requireCacheControlAgreement unagreed
  let owning ← passPreflight rank
  let transaction ← passPreparation rank owning
  let transaction ← passPublication rank transaction
  commitTransaction rank transaction

inductive ControlCall where
  | preparePrefill
  | startPrefill
  | advancePrefill
  | checkpoint
  | checkpointDistributed
  | rollback
  | rollbackComplete
  | restoreDistributedState
  | reset
  | resetDistributed
  | exchangePredictionTargetState
  | preparePredictionTargetState
  | applyPredictionTargetOperation
  | loadPromptCache
  | loadPromptCacheDistributed
  | savePromptCache
  | savePromptCacheDistributed

/-- What a call checks of its session before anything else. An error of the check is the result of
the call. -/
def ControlCall.guard : ControlCall → SessionM μ ω E T Unit
  | loadPromptCache | savePromptCache => ensureControlUnfenced
  | _ => ensureCommitResolved

end Code

end Eredu.Session
