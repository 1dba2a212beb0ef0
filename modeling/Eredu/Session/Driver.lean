import Eredu.Session.Rank

/-!
# The driver of a partitioned model

`forward_with_observer` of the partitioned execution, under a failure agreement. The
groups of the architecture run one after the other. Inside a group the activations
go along a pipeline of ranks, wave by wave, and the routes to other groups follow.
The ranks vote on the execution of every wave, and on the preparation of every
transfer before it begins.

No vote follows the beginning of a pass, the choice of the endpoints of a wave or a
transfer. A rank that fails there leaves the driver at once, on its own.
-/

namespace Eredu.Session

open Participant

/-- The sources that wait for no remaining transfer. -/
def nextWave (remaining : List Route) : List Route :=
  remaining.filter fun route =>
    !remaining.any fun candidate => candidate.destinationRank = route.sourceRank

def afterWave (remaining : List Route) : List Route :=
  remaining.filter fun route => route ∉ nextWave remaining

theorem length_afterWave_lt {remaining : List Route} (acyclic : nextWave remaining ≠ []) :
    (afterWave remaining).length < remaining.length := by
  obtain ⟨route, chosen⟩ := List.exists_mem_of_ne_nil _ acyclic
  refine List.length_filter_lt_length_iff_exists.mpr ⟨route, (List.mem_filter.mp chosen).1, ?_⟩
  simpa using chosen

/-- The route that stands for a wave in the phases and the messages. -/
def firstRoute (wave : List Route) : Nat := (wave.head?.map Route.id).getD 0

def routeSubmissionWave (first expected actual : Nat) : String :=
  s!"route submission wave beginning at CommunicationRouteId({first}) has {actual} local " ++
    s!"routes/endpoints, expected {expected}"

namespace Plan

variable (plan : Plan) (group : Nat)

def sameGroupRoutes : List Route :=
  plan.routes.filter fun route => route.sourceGroup = group ∧ route.destinationGroup = group

def outgoingRoutes : List Route :=
  plan.routes.filter fun route =>
    route.sourceGroup = group ∧ route.sourceGroup ≠ route.destinationGroup

/-- The outgoing routes of one wave of the manifest, which it holds all or none of. -/
def submissionWave (ids : List Nat) : Except String (List Route) :=
  let wave := ids.filterMap fun id => (plan.outgoingRoutes group).find? (·.id = id)
  if wave.length = 0 ∨ wave.length = ids.length then .ok wave
  else .error (routeSubmissionWave (ids.headD 0) ids.length wave.length)

def outgoingWaves : Except String (List (List Route)) := do
  let waves ← plan.submissionWaves.mapM (plan.submissionWave group)
  if waves.flatten.length = (plan.outgoingRoutes group).length then
    return waves.filter (· ≠ [])
  else .error "outgoing routes were omitted from manifest submission waves"

end Plan

variable {μ χ φ ω O E T α : Type}

def remoteFailure (phase : Phase) : SessionError E :=
  .contract s!"another rank reported failure during distributed phase {phase.debug}"

def orThrow : Except (SessionError E) α → SessionM μ ω E T α
  | .ok value => return value
  | .error cause => throw cause

/-- The `?` of the source. -/
def propagate (m : SessionM μ ω E T (Except (SessionError E) α)) : SessionM μ ω E T α := do
  orThrow (← m)

def callExecutor (operation : Effect.Call (μ × ω) (SessionError E) α) :
    SessionM μ ω E T (Except (SessionError E) α) :=
  act fun state =>
    let called := operation (state.model, state.world)
    (called.1, { state with model := called.2.1, world := called.2.2 })

variable (rank : Rank μ χ φ ω O E T)

/-- Work on those routes of a wave of which the rank is an end. -/
def callBoundaries (work : List Route → Work) (wave : List Route) :
    SessionM μ ω E T (Except (SessionError E) Unit) :=
  match wave.filter fun route => rank.participates route.id with
  | [] => pure (.ok ())
  | routes => callExecutor (rank.work (work routes))

def driveExecution (group wave : Nat) : SessionM μ ω E T Unit := do
  let execution ← callExecutor (rank.work (.execute group wave))
  propagate (ballot rank .own .execution execution (.remotePhaseFailure .execution))

/-- One vote for every route of a wave. Returns the first that was refused. -/
def voteRoutes (phase : Nat → Phase) (success : Bool) (report : SessionError E → SessionError E) :
    List Route → SessionM μ ω E T (Option Nat)
  | [] => return none
  | route :: wave => do
    match ← agreeDistributedPhase rank (phase route.id) success with
    | .error cause => throw (report cause)
    | .ok agreed =>
      let refused ← voteRoutes phase success report wave
      return if agreed then refused else some route.id

def requireRoutes (phase : Nat → Phase) : Option Nat → SessionM μ ω E T Unit
  | none => return ()
  | some route => throw (remoteFailure (phase route))

def completionFailure (prepared : Except (SessionError E) Unit) (transport : SessionError E) :
    SessionError E :=
  match prepared with
  | .error cause => cause
  | .ok () => .contract (rank.describe transport)

def drivePipelineWave (group ordinal : Nat) (wave : List Route) : SessionM μ ω E T Unit := do
  driveExecution rank group ordinal
  let prepared ← callBoundaries rank .prepare wave
  let uncompleted ← voteRoutes rank .boundarySourceCompletion prepared.toBool
    (completionFailure rank prepared) wave
  orThrow prepared
  requireRoutes .boundarySourceCompletion uncompleted
  let unready ← voteRoutes rank .boundarySourceReady true id wave
  requireRoutes .boundarySourceReady unready
  propagate (callBoundaries rank .transfer wave)

/-- Returns the ordinal of the execution that follows the pipeline. -/
def drivePipeline (group ordinal : Nat) (remaining : List Route) : SessionM μ ω E T Nat :=
  if remaining = [] then return ordinal
  else if acyclic : nextWave remaining ≠ [] then do
    drivePipelineWave rank group ordinal (nextWave remaining)
    drivePipeline group (ordinal + 1) (afterWave remaining)
  else throw (.contract "same-group pipeline routes contain a rank cycle")
termination_by remaining.length
decreasing_by exact length_afterWave_lt acyclic

/-- In a wave of several routes the rank is an end of exactly one. -/
def checkEndpoints (wave : List Route) : Except (SessionError E) Unit :=
  let endpoints := wave.filter fun route => rank.participates route.id
  if wave.length ≤ 1 ∨ endpoints.length = 1 then .ok ()
  else .error (.contract (routeSubmissionWave (firstRoute wave) 1 endpoints.length))

def driveSubmissionWave (wave : List Route) : SessionM μ ω E T Unit := do
  let first := firstRoute wave
  orThrow (checkEndpoints rank wave)
  let prepared ← callBoundaries rank .prepare wave
  propagate (ballot rank .vote (.boundarySourceCompletion first) prepared
    (remoteFailure (.boundarySourceCompletion first)))
  propagate (ballot rank .vote (.boundarySourceReady first) (.ok ())
    (remoteFailure (.boundarySourceReady first)))
  propagate (callBoundaries rank .transfer wave)

def driveSameGroup (group : Nat) : SessionM μ ω E T Nat :=
  if rank.plan.sameGroupRoutes group = [] then pure 0
  else drivePipeline rank group 0 (rank.plan.sameGroupRoutes group)

def driveGroup (group : Nat) : SessionM μ ω E T Unit := do
  let ordinal ← driveSameGroup rank group
  driveExecution rank group ordinal
  match rank.plan.outgoingWaves group with
  | .error message => throw (.contract message)
  | .ok waves => waves.forM (driveSubmissionWave rank)

def drive : SessionM μ ω E T Unit := do
  propagate (callExecutor (rank.work .begin))
  rank.plan.groups.forM (driveGroup rank)

/-- `forward_with_observer` of the driver. The trace tells the model state before and after. -/
def driveForward : SessionM μ ω E T (Except (SessionError E) (O × φ)) := do
  let start ← get
  let execution ← match ← attempt (drive rank) with
    | .error cause => pure (.error cause)
    | .ok () => callExecutor rank.finish
  modify fun state => state.note (.ran start.model state.model)
  return execution

end Eredu.Session
