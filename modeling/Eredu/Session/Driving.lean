import Eredu.Session.Driver

/-!
# The driver keeps the ranks together

The ranks of a step run in families: one session, one `Rank` and one outcome for
every index. After each vote either every rank goes on or every rank gives up. This
needs one property of the rounds only: a vote that was agreed was cast by everyone.

`Drives` says so of the parts of the driver. It needs two things that no vote
secures: that all ranks have one plan, and that no rank fails where it would leave
the driver alone. A rank without peers needs neither.
-/

namespace Eredu.Session

open Participant

variable {μ χ φ ω O E T α β ι : Type} {permitted : Rounds.Answers ι Ballot (Verdict T)}
  {ranks : ι → Rank μ χ φ ω O E T} {states : ι → State μ ω}

/-- A vote is agreed only if every rank cast it. -/
def Sound (permitted : Rounds.Answers ι Ballot (Verdict T)) : Prop :=
  ∀ phase ballots, permitted (.vote phase) ballots (.ok true) → ∀ i, ballots i = true

theorem sound_agreement : Sound (agreement ι T) :=
  fun _ _ answered => (answered true rfl).mp rfl

variable {stopped : (ι → SessionError E) → (ι → State μ ω) → Prop}

theorem jointly_agreeDistributedPhase (sound : Sound permitted) {phase : Phase} {success : ι → Bool}
    {returned : (ι → Except (SessionError E) Bool) → (ι → State μ ω) → Prop}
    (failed : ∀ causes : ι → SessionError E, returned (fun i => .error (causes i))
      fun i => (states i).note (.entered phase))
    (refused : returned (fun _ => .ok false) fun i => (states i).note (.entered phase))
    (agreed : (∀ i, success i = true) →
      returned (fun _ => .ok true) fun i => (states i).note (.entered phase)) :
    Jointly permitted (fun i => agreeDistributedPhase (ranks i) phase (success i)) states returned
      stopped := by
  refine .bind (jointly_modify (.bind (jointly_ask ?_)))
  intro verdict answered
  apply jointly_pure
  match verdict, answered with
  | .error _, _ => exact failed _
  | .ok false, _ => exact refused
  | .ok true, answered => exact agreed (sound phase success answered)

theorem Priority.settle_failed (priority : Priority) (peer : SessionError E)
    (own : Except (SessionError E) α) (transport : SessionError E) :
    ∃ cause, priority.settle peer own (.error transport) = .error cause := by
  cases own <;> cases priority <;> exact ⟨_, rfl⟩

theorem Priority.settle_refused (priority : Priority) (peer : SessionError E)
    (own : Except (SessionError E) α) :
    ∃ cause, priority.settle peer own (.ok false) = .error cause := by
  cases own <;> exact ⟨_, rfl⟩

theorem ok_of_toBool {own : Except (SessionError E) α} (succeeded : own.toBool = true) :
    ∃ value, own = .ok value := by
  cases own with
  | ok value => exact ⟨value, rfl⟩
  | error cause => cases succeeded

theorem jointly_ballot (sound : Sound permitted) (priority : Priority) {phase : Phase}
    {own : ι → Except (SessionError E) α} {peer : SessionError E}
    {returned : (ι → Except (SessionError E) α) → (ι → State μ ω) → Prop}
    (agreed : ∀ values : ι → α, (∀ i, own i = .ok (values i)) →
      returned (fun i => .ok (values i)) fun i => (states i).note (.entered phase))
    (rejected : ∀ causes : ι → SessionError E, returned (fun i => .error (causes i))
      fun i => (states i).note (.entered phase)) :
    Jointly permitted (fun i => ballot (ranks i) priority phase (own i) peer) states returned
      stopped := by
  refine .bind (jointly_agreeDistributedPhase sound ?_ ?_ ?_)
  · intro transports
    choose causes settled using fun i => priority.settle_failed peer (own i) (transports i)
    apply jointly_pure
    simpa only [settled] using rejected causes
  · choose causes settled using fun i => priority.settle_refused peer (own i)
    apply jointly_pure
    simpa only [settled] using rejected causes
  · intro cast
    choose values succeeded using fun i => ok_of_toBool (cast i)
    apply jointly_pure
    simpa only [succeeded, Priority.settle] using agreed values succeeded

/-- What the driver has made of a session after these votes, the latest first. -/
def State.driven (votes : List Phase) (model : μ) (world : ω) (start : State μ ω) : State μ ω :=
  { start with model := model, world := world, trace := votes.map .entered ++ start.trace }

/-- All ranks have entered the same votes since the driver began. -/
def Driving (starts now : ι → State μ ω) : Prop :=
  ∃ votes, ∀ i, ∃ model world, now i = (starts i).driven votes model world

namespace Driving

variable {starts now : ι → State μ ω}

theorem start : Driving starts starts := ⟨[], fun i => ⟨(starts i).model, (starts i).world, rfl⟩⟩

variable (driving : Driving starts now)
include driving

theorem called (models : ι → μ) (worlds : ι → ω) :
    Driving starts fun i => { now i with model := models i, world := worlds i } := by
  obtain ⟨votes, reached⟩ := driving
  refine ⟨votes, fun i => ⟨models i, worlds i, ?_⟩⟩
  obtain ⟨_, _, same⟩ := reached i
  simp only [same, State.driven]

theorem entered (phase : Phase) : Driving starts fun i => (now i).note (.entered phase) := by
  obtain ⟨votes, reached⟩ := driving
  refine ⟨phase :: votes, fun i => ?_⟩
  obtain ⟨model, world, same⟩ := reached i
  exact ⟨model, world, by simp only [same]; rfl⟩

end Driving

/-- A computation of one rank without rounds that changes the model state and the world only. -/
def Inside (m : SessionM μ ω E T α) (holds : α → Prop) : Prop :=
  ∀ state, ∃ value model world, holds value ∧
    m.rounds state = .done (.ok value, { state with model := model, world := world })

theorem inside_callExecutor (operation : Effect.Call (μ × ω) (SessionError E) α) :
    Inside (callExecutor operation : SessionM μ ω E T _) fun value =>
      ∃ left, value = (operation left).1 :=
  fun _ => ⟨_, _, _, ⟨_, rfl⟩, rfl⟩

theorem inside_callBoundaries (rank : Rank μ χ φ ω O E T) (work : List Route → Work)
    (wave : List Route) :
    Inside (callBoundaries rank work wave) fun value =>
      value = .ok () ∨ ∃ routes left, value = (rank.work (work routes) left).1 := by
  intro state
  unfold callBoundaries
  split
  · exact ⟨_, state.model, state.world, .inl rfl, rfl⟩
  · exact ⟨_, _, _, .inr ⟨_, _, rfl⟩, rfl⟩

/-- Ranks that have driven together do so until the computations return or stop on all of them. -/
def Drives (permitted : Rounds.Answers ι Ballot (Verdict T)) (starts : ι → State μ ω)
    (m : ι → SessionM μ ω E T α) (holds : (ι → α) → Prop) : Prop :=
  ∀ now, Driving starts now → Jointly permitted m now
    (fun values after => holds values ∧ Driving starts after) fun _ => Driving starts

abbrev Together (own : ι → Except (SessionError E) α) : Prop :=
  (∃ values : ι → α, own = fun i => .ok (values i)) ∨
    ∃ causes : ι → SessionError E, own = fun i => .error (causes i)

theorem together_of_subsingleton [Subsingleton ι] (own : ι → Except (SessionError E) α) :
    Together own := by
  by_cases inhabited : Nonempty ι
  · obtain ⟨only⟩ := inhabited
    have same (i : ι) : own i = own only := congrArg own (Subsingleton.elim i only)
    cases ending : own only with
    | ok value => exact .inl ⟨fun _ => value, funext fun i => (same i).trans ending⟩
    | error cause => exact .inr ⟨fun _ => cause, funext fun i => (same i).trans ending⟩
  · exact .inl ⟨fun i => absurd ⟨i⟩ inhabited, funext fun i => absurd ⟨i⟩ inhabited⟩

section Drives

variable {starts : ι → State μ ω} {m : ι → SessionM μ ω E T α} {holds : (ι → α) → Prop}

theorem drives_bind {next : ι → α → SessionM μ ω E T β} {holds' : (ι → β) → Prop}
    (first : Drives permitted starts m holds) (rest : ∀ values, holds values →
      Drives permitted starts (fun i => next i (values i)) holds') :
    Drives permitted starts (fun i => m i >>= next i) holds' :=
  fun now driving => .bind ((first now driving).mono
    (fun values after reached => rest values reached.1 after reached.2) fun _ _ => id)

theorem Drives.mono {weaker : (ι → α) → Prop} (drives : Drives permitted starts m holds)
    (implied : ∀ values, holds values → weaker values) : Drives permitted starts m weaker :=
  fun now driving => (drives now driving).mono
    (fun values _ reached => ⟨implied values reached.1, reached.2⟩) fun _ _ => id

theorem drives_pure {values : ι → α} (reached : holds values) :
    Drives permitted starts (fun i => (pure (values i) : SessionM μ ω E T α)) holds :=
  fun _ driving => jointly_pure ⟨reached, driving⟩

theorem drives_throw (causes : ι → SessionError E) :
    Drives permitted starts (fun i => throw (causes i)) holds :=
  fun _ driving => jointly_throw driving

theorem drives_orThrow {own : ι → Except (SessionError E) α} (together : Together own) :
    Drives permitted starts (fun i => orThrow (own i)) fun values =>
      own = fun i => .ok (values i) := by
  rcases together with ⟨values, rfl⟩ | ⟨causes, rfl⟩
  · exact drives_pure rfl
  · exact drives_throw causes

theorem drives_inside {holds : ι → α → Prop} (inside : ∀ i, Inside (m i) (holds i)) :
    Drives permitted starts m fun values => ∀ i, holds i (values i) := by
  intro now driving
  choose values models worlds reached ending using fun i => inside i (now i)
  unfold Jointly
  simp only [ending]
  exact .done _ (.inl ⟨values, _, rfl, reached, driving.called models worlds⟩)

/-- Work on which no vote is held. -/
theorem drives_unvoted {m : ι → SessionM μ ω E T (Except (SessionError E) Unit)}
    {holds : ι → Except (SessionError E) Unit → Prop} (inside : ∀ i, Inside (m i) (holds i))
    (succeeds : (∀ i value, holds i value → value = .ok ()) ∨ Subsingleton ι) :
    Drives permitted starts (fun i => propagate (m i)) fun _ => True := by
  refine drives_bind (drives_inside inside) fun values reached => ?_
  have together : Together values := by
    rcases succeeds with succeeds | alone
    · exact .inl ⟨fun _ => (), funext fun i => succeeds i _ (reached i)⟩
    · exact together_of_subsingleton values
  exact (drives_orThrow together).mono fun _ _ => trivial

theorem drives_requireRoutes (phase : Nat → Phase) (refused : Option Nat) :
    Drives permitted starts (fun _ => (requireRoutes phase refused : SessionM μ ω E T Unit))
      fun _ => refused = none := by
  cases refused with
  | none => exact drives_pure rfl
  | some route => exact drives_throw _

/-- A refusal stops the ranks whose own preparation succeeded, and the others stop with their own
errors. -/
theorem drives_completion {prepared : ι → Except (SessionError E) Unit} {refused : Option Nat}
    (cast : refused = none → ∀ i, (prepared i).toBool = true)
    {rest : ι → SessionM μ ω E T α} {holds : (ι → α) → Prop}
    (goesOn : Drives permitted starts rest holds) :
    Drives permitted starts (fun i => do
      orThrow (prepared i)
      requireRoutes .boundarySourceCompletion refused
      rest i) holds := by
  cases refused with
  | none =>
    choose values succeeded using fun i => ok_of_toBool (cast rfl i)
    refine drives_bind (drives_orThrow (.inl ⟨values, funext succeeded⟩)) fun _ _ => ?_
    exact drives_bind (drives_requireRoutes _ none) fun _ _ => goesOn
  | some route =>
    have stops (i : ι) : (do
        orThrow (prepared i)
        requireRoutes .boundarySourceCompletion (some route)
        rest i) = throw ((prepared i).casesOn id fun _ =>
          remoteFailure (.boundarySourceCompletion route)) := by
      cases prepared i <;> rfl
    simp only [stops]
    exact drives_throw _

theorem drives_forM {items : List β} {body : ι → β → SessionM μ ω E T Unit}
    (each : ∀ item ∈ items, Drives permitted starts (fun i => body i item) fun _ => True) :
    Drives permitted starts (fun i => items.forM (body i)) fun _ => True := by
  induction items with
  | nil => exact drives_pure trivial
  | cons item items ih =>
    refine drives_bind (each item (by simp)) fun _ _ => ih fun other listed => each other ?_
    exact List.mem_cons_of_mem item listed

section Votes

variable (sound : Sound permitted)
include sound

theorem drives_ballot (priority : Priority) (phase : Phase)
    (own : ι → Except (SessionError E) Unit) (peer : SessionError E) :
    Drives permitted starts
      (fun i => propagate (ballot (ranks i) priority phase (own i) peer)) fun _ => True := by
  intro now driving
  refine .bind (jointly_ballot sound priority ?_ ?_)
  · exact fun _ _ => jointly_pure ⟨trivial, driving.entered phase⟩
  · exact fun _ => jointly_throw (driving.entered phase)

theorem drives_execution (group wave : Nat) :
    Drives permitted starts (fun i => driveExecution (ranks i) group wave) fun _ => True :=
  drives_bind (drives_inside fun _ => inside_callExecutor _) fun executions _ =>
    drives_ballot sound .own .execution executions _

/-- All ranks learn of the same refusal. Without one, all have cast their votes. -/
theorem drives_voteRoutes (phase : Nat → Phase) (success : ι → Bool)
    (report : ι → SessionError E → SessionError E) (wave : List Route) :
    Drives permitted starts
      (fun i => voteRoutes (ranks i) phase (success i) (report i) wave) fun refusals =>
        ∃ refused, refusals = (fun _ => refused) ∧
          (wave ≠ [] → refused = none → ∀ i, success i = true) := by
  induction wave with
  | nil => exact drives_pure ⟨none, rfl, fun nonempty => absurd rfl nonempty⟩
  | cons route wave ih =>
    intro now driving
    have entered := driving.entered (phase route.id)
    refine .bind (jointly_agreeDistributedPhase sound ?_ ?_ ?_)
    · exact fun _ => jointly_throw entered
    · refine drives_bind ih (fun refusals _ => ?_) _ entered
      exact drives_pure ⟨some route.id, rfl, fun _ => nofun⟩
    · intro cast
      refine drives_bind ih (fun refusals common => ?_) _ entered
      obtain ⟨refused, rfl, _⟩ := common
      exact drives_pure ⟨refused, rfl, fun _ _ => cast⟩

end Votes

section Plan

/-- A rank that does not fail where no vote is held. -/
structure Rank.Reliable (rank : Rank μ χ φ ω O E T) : Prop where
  begins : ∀ left, (rank.work .begin left).1 = .ok ()
  transfers : ∀ routes left, (rank.work (.transfer routes) left).1 = .ok ()
  endpoints : ∀ group ∈ rank.plan.groups, ∀ waves, rank.plan.outgoingWaves group = .ok waves →
    ∀ wave ∈ waves, checkEndpoints rank wave = .ok ()

/-- The ranks have one plan and fail only where they vote, or there is one rank only. -/
structure InConcert (ranks : ι → Rank μ χ φ ω O E T) (plan : Plan) : Prop where
  planned : ∀ i, (ranks i).plan = plan
  reliable : (∀ i, (ranks i).Reliable) ∨ Subsingleton ι

variable {plan : Plan} (sound : Sound permitted) (concert : InConcert ranks plan)
include sound concert

omit sound in
theorem drives_transfer (wave : List Route) :
    Drives permitted starts (fun i => propagate (callBoundaries (ranks i) .transfer wave))
      fun _ => True := by
  refine drives_unvoted (fun i => inside_callBoundaries (ranks i) .transfer wave) ?_
  refine concert.reliable.imp_left fun reliable i value called => ?_
  rcases called with rfl | ⟨routes, left, rfl⟩
  · rfl
  · exact (reliable i).transfers routes left

theorem drives_pipelineWave (group ordinal : Nat) {wave : List Route} (nonempty : wave ≠ []) :
    Drives permitted starts (fun i => drivePipelineWave (ranks i) group ordinal wave)
      fun _ => True := by
  refine drives_bind (drives_execution sound group ordinal) fun _ _ => ?_
  refine drives_bind (drives_inside fun i => inside_callBoundaries (ranks i) .prepare wave)
    fun prepared _ => ?_
  refine drives_bind (drives_voteRoutes sound _ _ _ wave) fun refusals common => ?_
  obtain ⟨refused, rfl, cast⟩ := common
  refine drives_completion (cast nonempty) ?_
  refine drives_bind (drives_voteRoutes sound _ _ _ wave) fun refusals common => ?_
  obtain ⟨unready, rfl, _⟩ := common
  exact drives_bind (drives_requireRoutes _ unready) fun _ _ => drives_transfer concert wave

theorem drives_pipeline (group ordinal : Nat) (remaining : List Route) :
    Drives permitted starts (fun i => drivePipeline (ranks i) group ordinal remaining)
      fun ordinals => ∃ ordinal, ordinals = fun _ => ordinal := by
  induction size : remaining.length using Nat.strong_induction_on
    generalizing ordinal remaining with
  | _ size ih =>
    simp only [fun i => drivePipeline.eq_1 (ranks i) group ordinal remaining]
    split
    · exact drives_pure ⟨ordinal, rfl⟩
    split
    · rename_i acyclic
      refine drives_bind (drives_pipelineWave sound concert group ordinal acyclic) fun _ _ => ?_
      exact ih _ (size ▸ length_afterWave_lt acyclic) _ _ rfl
    · exact drives_throw _

theorem drives_submissionWave {group : Nat} (active : group ∈ plan.groups)
    {waves : List (List Route)} (outgoing : plan.outgoingWaves group = .ok waves)
    {wave : List Route} (listed : wave ∈ waves) :
    Drives permitted starts (fun i => driveSubmissionWave (ranks i) wave) fun _ => True := by
  have checked : Together fun i => checkEndpoints (ranks i) wave := by
    rcases concert.reliable with reliable | alone
    · refine .inl ⟨fun _ => (), funext fun i => ?_⟩
      exact (reliable i).endpoints group (by rwa [concert.planned i]) waves
        (by rwa [concert.planned i]) wave listed
    · exact together_of_subsingleton _
  refine drives_bind (drives_orThrow checked) fun _ _ => ?_
  refine drives_bind (drives_inside fun i => inside_callBoundaries (ranks i) .prepare wave)
    fun prepared _ => ?_
  refine drives_bind (drives_ballot sound .vote _ prepared _) fun _ _ => ?_
  refine drives_bind (drives_ballot sound .vote _ (fun _ => .ok ()) _) fun _ _ => ?_
  exact drives_transfer concert wave

theorem drives_sameGroup (group : Nat) :
    Drives permitted starts (fun i => driveSameGroup (ranks i) group)
      fun ordinals => ∃ ordinal, ordinals = fun _ => ordinal := by
  simp only [driveSameGroup, concert.planned]
  split
  · exact drives_pure ⟨0, rfl⟩
  · exact drives_pipeline sound concert group 0 _

theorem drives_group {group : Nat} (active : group ∈ plan.groups) :
    Drives permitted starts (fun i => driveGroup (ranks i) group) fun _ => True := by
  simp only [driveGroup, concert.planned]
  refine drives_bind (drives_sameGroup sound concert group) fun _ common => ?_
  obtain ⟨ordinal, rfl⟩ := common
  refine drives_bind (drives_execution sound group ordinal) fun _ _ => ?_
  cases outgoing : plan.outgoingWaves group with
  | error message => exact drives_throw _
  | ok waves =>
    exact drives_forM fun _ listed => drives_submissionWave sound concert active outgoing listed

theorem drives_drive : Drives permitted starts (fun i => drive (ranks i)) fun _ => True := by
  simp only [drive, concert.planned]
  refine drives_bind (drives_unvoted (fun i => inside_callExecutor ((ranks i).work .begin)) ?_)
    fun _ _ => drives_forM fun _ active => drives_group sound concert active
  exact concert.reliable.imp_left fun reliable i _ ⟨left, called⟩ =>
    called.trans ((reliable i).begins left)

/-- The driver ends on all ranks after the same votes, with any results. -/
theorem jointly_driveForward
    {returned : (ι → Except (SessionError E) (O × φ)) → (ι → State μ ω) → Prop}
    (ended : ∀ executions now, Driving starts now →
      returned executions fun i => (now i).note (.ran (starts i).model (now i).model)) :
    Jointly permitted (fun i => driveForward (ranks i)) starts returned stopped := by
  refine .bind (jointly_get (.bind (jointly_attempt
    ((drives_drive sound concert starts .start).mono ?_ ?_))))
  · rintro _ driven ⟨-, driving⟩
    have finished := driving.called
      (fun i => ((ranks i).finish ((driven i).model, (driven i).world)).2.1)
      fun i => ((ranks i).finish ((driven i).model, (driven i).world)).2.2
    exact .bind (jointly_act (.bind (jointly_modify (jointly_pure (ended _ _ finished)))))
  · intro causes driven driving
    exact .bind (jointly_pure (.bind (jointly_modify (jointly_pure (ended _ driven driving)))))

end Plan

end Drives

end Eredu.Session
