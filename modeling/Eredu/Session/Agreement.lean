import Eredu.Session.Story

/-!
# All ranks take the same turns

The stages of a step, one after the other. After each vote either every rank goes on
or every rank gives up, so the family stays together. What the driver needs for it is
needed here: one plan, and no failure of a rank that no vote would tell the others.
-/

namespace Eredu.Session

open Participant Jointly

variable {μ χ φ ω O E T α ι : Type} {permitted : Rounds.Answers ι Ballot (Verdict T)}
  {ranks : ι → Rank μ χ φ ω O E T} {states : ι → State μ ω}

variable {stopped : (ι → SessionError E) → (ι → State μ ω) → Prop}

/-- A computation without rounds that changes the world of its rank only. -/
def Outside (m : SessionM μ ω E T α) : Prop :=
  ∀ state, ∃ value world, m.rounds state = .done (.ok value, { state with world := world })

theorem outside_pure (value : α) : Outside (pure value : SessionM μ ω E T α) :=
  fun state => ⟨value, state.world, rfl⟩

theorem outside_callWorld {E' : Type} (wrap : E' → SessionError E)
    (operation : Effect.Call ω E' α) : Outside (callWorld wrap operation : SessionM μ ω E T _) :=
  fun _ => ⟨_, _, rfl⟩

variable (rank : Rank μ χ φ ω O E T)

theorem outside_observeOutput (output : O) (context : φ) :
    Outside (observeOutput rank output context) := by
  unfold observeOutput
  split
  · exact outside_callWorld _ _
  · exact outside_pure _

theorem outside_completeOutput (output : O) : Outside (completeOutput rank output) := by
  unfold completeOutput
  split
  · exact fun _ => ⟨_, _, rfl⟩
  · exact outside_pure _

theorem outside_askObserver (epoch : Nat) (preparing : Bool) :
    Outside (askObserver rank epoch preparing) := by
  unfold askObserver
  split
  · exact outside_pure _
  split
  · exact outside_callWorld _ _
  · exact outside_callWorld _ _

theorem outside_finishGuard (epoch : Nat) (committed : Bool) :
    Outside (finishGuard rank epoch committed) := by
  unfold finishGuard
  split
  · exact fun _ => ⟨_, _, rfl⟩
  · exact outside_pure _

variable {returned : (ι → α) → (ι → State μ ω) → Prop}

theorem jointly_outside {m : ι → SessionM μ ω E T α} (ho : ∀ i, Outside (m i))
    (hh : ∀ (values : ι → α) (worlds : ι → ω),
      returned values fun i => { states i with world := worlds i }) :
    Jointly permitted m states returned stopped := by
  apply jointly_of_returned fun i _ after => ∃ world, after = { states i with world := world }
  · intro i
    obtain ⟨value, world, hs⟩ := ho i (states i)
    exact ⟨value, _, hs, world, rfl⟩
  · intro values after hp
    choose worlds hs using hp
    rw [funext hs]
    exact hh values worlds

section Stages

variable {before : ι → State μ ω} {epoch : Nat} {phases : List Phase} {checkpoints : ι → χ}

variable (ranks)

def AllMidway (epoch : Nat) (phases : List Phase)
    (before now : ι → State μ ω) (stage : Stage) : Prop :=
  ∀ i, Midway (ranks i).Exact epoch phases (before i) (now i) stage

def AllEnded (epoch : Nat) (outcome : CommitOutcome) (before after : ι → State μ ω) : Prop :=
  ∃ phases, ∀ i, Ended (ranks i).Exact epoch phases (before i) (after i) outcome

def GivenUp (epoch : Nat) (before after : ι → State μ ω) : Prop :=
  ∃ outcome, (outcome = .aborted epoch ∨ ∃ phase, outcome = .indeterminate epoch phase) ∧
    AllEnded ranks epoch outcome before after

/-- Every rank commits the epoch, or every rank gives it up. -/
abbrev Decides (permitted : Rounds.Answers ι Ballot (Verdict T)) (ranks : ι → Rank μ χ φ ω O E T)
    (epoch : Nat) (before : ι → State μ ω) (m : ι → SessionM μ ω E T α) (states : ι → State μ ω) :
    Prop :=
  Jointly permitted m states (fun _ => AllEnded ranks epoch (.committed epoch) before)
    fun _ => GivenUp ranks epoch before

def AllTaken (before : ι → State μ ω) (checkpoints : ι → χ) : Prop :=
  ∀ i, (ranks i).TakenFrom (checkpoints i) (before i).model

variable {ranks}

theorem jointly_abortWithoutRollback (hm : AllMidway ranks epoch phases before states .opened)
    (causes : ι → SessionError E) :
    Jointly permitted (fun i => abortWithoutRollback (causes i)) states returned
      fun _ => GivenUp ranks epoch before :=
  bind <| jointly_modify <| jointly_throw
    ⟨.aborted epoch, .inl rfl, phases, fun i => (hm i).takeAborted⟩

theorem jointly_rollbackFailure (hm : AllMidway ranks epoch phases before states .executed)
    (ht : AllTaken ranks before checkpoints) (causes : ι → SessionError E) :
    Jointly permitted (fun i => rollbackFailure (ranks i) (checkpoints i) (causes i)) states
      returned fun _ => GivenUp ranks epoch before :=
  jointly_of_stopped _ (fun i => rounds_rollbackFailure (hm i) (ht i) (causes i))
    fun _ _ he => ⟨.aborted epoch, .inl rfl, phases, he⟩

theorem jointly_checkpointObservedState (hs : Sound permitted)
    (hm : AllMidway ranks epoch phases before states .opened) :
    Jointly permitted (fun i => checkpointObservedState (ranks i)) states
      (fun checkpoints after => AllTaken ranks before checkpoints ∧
        AllMidway ranks epoch (.stateCheckpoint :: phases) before after .opened)
      fun _ => GivenUp ranks epoch before := by
  have he (taken : ι → Bool) (worlds : ι → ω) :
      AllMidway ranks epoch (.stateCheckpoint :: phases) before _ .opened :=
    fun i => ((hm i).checkpoint (taken i) (worlds i)).enterOpened nofun
  refine bind (jointly_act (bind (jointly_ballot hs .vote ?_ ?_)))
  · intro checkpoints taken
    apply jointly_pure
    refine ⟨fun i => ⟨(states i).world, ?_⟩, he _ _⟩
    rw [← (hm i).model_opened]
    have hc := taken i
    cases hr : ((ranks i).checkpointState (states i).model (states i).world).1 with
    | error cause => simp [hr, Except.mapError] at hc
    | ok checkpoint => simpa [hr, Except.mapError] using hc
  · exact fun causes => jointly_abortWithoutRollback (he _ _) causes

theorem jointly_admitObserver (hs : Sound permitted)
    (hm : AllMidway ranks epoch phases before states .opened) (phase : Phase)
    (hea : phase ≠ .execution) (preparing : Bool) :
    Jointly permitted (fun i => admitObserver (ranks i) epoch phase preparing) states
      (fun _ after => AllMidway ranks epoch (phase :: phases) before after .opened)
      fun _ after => AllMidway ranks epoch (phase :: phases) before after .opened := by
  refine bind (jointly_outside (fun i => outside_askObserver (ranks i) epoch preparing) ?_)
  intro prepared worlds
  have he : AllMidway ranks epoch (phase :: phases) before _ .opened :=
    fun i => ((hm i).withWorld (worlds i)).enterOpened hea
  refine bind (jointly_ballot hs .own ?_ ?_)
  · exact fun _ _ => jointly_pure he
  · exact fun _ => jointly_throw he

/-- The observers of all ranks are transactional, or those of none. -/
def Uniform (ranks : ι → Rank μ χ φ ω O E T) : Prop :=
  (∀ i, (ranks i).transactional = false) ∨ ∀ i, (ranks i).transactional = true

theorem jointly_agreeParticipation (hs : Sound permitted) (unagreed : Bool)
    (hm : AllMidway ranks epoch phases before states .opened) :
    Jointly permitted (fun i => agreeParticipation (ranks i) unagreed epoch) states
      (fun _ after => Uniform ranks ∧ ∃ phases, AllMidway ranks epoch phases before after .opened)
      fun _ after => ∃ phases, AllMidway ranks epoch phases before after .opened := by
  have hp : AllMidway ranks epoch (.observationParticipation :: phases) before _ .opened :=
    fun i => (hm i).enterOpened nofun
  refine bind (jointly_agreeDistributedPhase hs ?_ ?_ ?_)
  · exact fun _ => jointly_throw ⟨_, hp⟩
  · have hr : AllMidway ranks epoch
        (.observationParticipationRequired :: .observationParticipation :: phases) before _ .opened :=
      fun i => (hp i).enterOpened nofun
    refine bind (jointly_agreeDistributedPhase hs ?_ ?_ ?_)
    · exact fun _ => jointly_throw ⟨_, hr⟩
    · exact jointly_throw ⟨_, hr⟩
    · intro hpt
      simp only [hpt]
      cases unagreed with
      | true => exact jointly_throw ⟨_, hr⟩
      | false =>
        refine bind ((jointly_admitObserver hs hr .observationPreparation nofun true).mono ?_ ?_)
        · intro _ _ hpr
          refine (jointly_admitObserver hs hpr .observationCoordination nofun false).mono ?_ ?_
          · exact fun _ _ hc => ⟨.inr hpt, _, hc⟩
          · exact fun _ _ hc => ⟨_, hc⟩
        · exact fun _ _ hpr => ⟨_, hpr⟩
  · intro ha
    exact jointly_pure ⟨.inl fun i => by simpa using ha i, _, hp⟩

theorem jointly_prepareObservationTransaction (hs : Sound permitted) (unagreed : Bool)
    (hm : AllMidway ranks epoch phases before states .opened) :
    Jointly permitted (fun i => prepareObservationTransaction (ranks i) unagreed epoch) states
      (fun _ after => Uniform ranks ∧ ∃ phases, AllMidway ranks epoch phases before after .opened)
      fun _ => GivenUp ranks epoch before := by
  refine bind (jointly_attempt ((jointly_agreeParticipation hs unagreed hm).mono ?_ ?_))
  · exact fun _ _ ha => jointly_pure ha
  · rintro causes after ⟨phases, hg⟩
    exact jointly_abortWithoutRollback hg _

theorem jointly_beginCommitEpoch (ha : ∀ i, Accepts epoch (before i)) :
    Jointly permitted (fun _ => (beginCommitEpoch : SessionM μ ω E T Nat)) before
      (fun epochs after => (epochs = fun _ => epoch) ∧
        AllMidway ranks epoch [] before after .opened) fun _ => GivenUp ranks epoch before := by
  apply jointly_of_returned fun i value after =>
    value = epoch ∧ Midway (ranks i).Exact epoch [] (before i) after .opened
  · exact fun i => ⟨epoch, _, (ha i).rounds_beginCommitEpoch, rfl, (ha i).midway _⟩
  · exact fun values after hp => ⟨funext fun i => (hp i).1, fun i => (hp i).2⟩

/-- The vote of the session follows those of the driver. -/
theorem AllMidway.driven (hm : AllMidway ranks epoch phases before states .opened)
    {now : ι → State μ ω} (driving : Driving states now) :
    ∃ phases, AllMidway ranks epoch phases before
      (fun i => ((now i).note (.ran (states i).model (now i).model)).note (.entered .execution))
      .executed := by
  obtain ⟨votes, reached⟩ := driving
  choose models worlds same using reached
  refine ⟨.execution :: (votes ++ phases), fun i => ?_⟩
  simp only [same]
  exact (hm i).run votes (models i) (worlds i)

theorem jointly_executeInputResultBeforePublication (hs : Sound permitted) (unagreed : Bool)
    {plan : Plan} (concert : InConcert ranks plan) (hac : ∀ i, Accepts epoch (before i)) :
    Jointly permitted (fun i => executeInputResultBeforePublication (ranks i) unagreed) before
      (fun results after => Uniform ranks ∧ AllTaken ranks before (fun i => (results i).2.1) ∧
        ∃ phases, AllMidway ranks epoch phases before after .executed)
      fun _ => GivenUp ranks epoch before := by
  refine bind ((jointly_beginCommitEpoch hac).mono ?_ fun _ _ => id)
  rintro _ opened ⟨rfl, hm⟩
  have hen : AllMidway ranks epoch [.inputPreparation] before _ .opened :=
    fun i => (hm i).enterOpened nofun
  refine bind (jointly_ballot hs .own ?_ ?_)
  swap
  · exact fun causes => jointly_abortWithoutRollback hen _
  intro _ _
  refine bind ((jointly_prepareObservationTransaction hs unagreed hen).mono ?_ fun _ _ => id)
  rintro _ prepared ⟨hu, phases, ha⟩
  refine bind ((jointly_checkpointObservedState hs ha).mono ?_ fun _ _ => id)
  rintro checkpoints checkpointed ⟨ht, hc⟩
  refine bind (jointly_driveForward hs concert fun executions now driving => ?_)
  obtain ⟨executed, he⟩ := hc.driven driving
  refine bind (jointly_ballot hs .own ?_ ?_)
  swap
  · exact fun causes => jointly_rollbackFailure he ht causes
  intro outputs _
  refine bind (jointly_outside (fun i => outside_observeOutput _ _ _) ?_)
  intro observations worlds
  have ho : AllMidway ranks epoch (.outputObservation :: executed) before _ .executed :=
    fun i => ((he i).withWorld (worlds i)).enterExecuted .outputObservation
  refine bind (jointly_ballot hs .vote ?_ ?_)
  · exact fun _ _ => jointly_pure ⟨hu, ht, _, ho⟩
  · exact fun causes => jointly_rollbackFailure ho ht causes

section Executed

variable (hm : AllMidway ranks epoch phases before states .executed)
  (ht : AllTaken ranks before checkpoints)

include hm ht

theorem jointly_publishObservedOutputTransaction (hs : Sound permitted) (outputs : ι → O)
    (contexts : ι → φ) :
    Jointly permitted (fun i =>
        publishObservedOutputTransaction (ranks i) (outputs i) (checkpoints i) (contexts i)) states
      (fun results after => AllTaken ranks before (fun i => (results i).2.1) ∧
        ∃ phases, AllMidway ranks epoch phases before after .executed)
      fun _ => GivenUp ranks epoch before := by
  refine bind (jointly_outside (fun i => outside_callWorld _ _) ?_)
  intro publications worlds
  have hp : AllMidway ranks epoch (.outputPublication :: phases) before _ .executed :=
    fun i => ((hm i).withWorld (worlds i)).enterExecuted .outputPublication
  refine bind (jointly_ballot hs .own ?_ ?_)
  · exact fun _ _ => jointly_pure ⟨ht, _, hp⟩
  · exact fun causes => jointly_rollbackFailure hp ht causes

theorem jointly_deliverObservation (hs : Sound permitted) (hu : Uniform ranks) :
    Jointly permitted (fun i => deliverObservation (ranks i) epoch (checkpoints i)) states
      (fun _ after => ∃ phases, AllMidway ranks epoch phases before after .executed)
      fun _ => GivenUp ranks epoch before := by
  rcases hu with ha | hp
  · simp only [deliverObservation, ha]
    exact jointly_pure ⟨phases, hm⟩
  · simp only [deliverObservation, hp]
    refine bind (jointly_outside (fun i => outside_callWorld _ _) ?_)
    intro deliveries worlds
    have hd : AllMidway ranks epoch (.observationDelivery :: phases) before _ .executed :=
      fun i => ((hm i).withWorld (worlds i)).enterExecuted .observationDelivery
    refine bind (jointly_ballot hs .own ?_ ?_)
    · exact fun _ _ => jointly_pure ⟨_, hd⟩
    · exact fun causes => jointly_rollbackFailure hd ht causes

theorem jointly_applyCommitOutcome (outcome : CommitOutcome) : Decides permitted ranks epoch before
      (fun i => applyCommitOutcome (ranks i) epoch (checkpoints i) outcome) states := by
  by_cases hs : outcome.epoch = epoch
  · cases outcome with
    | committed decided =>
      simp only [applyCommitOutcome, hs]
      exact jointly_modify ⟨phases, fun i => (hm i).committed⟩
    | aborted decided =>
      obtain rfl : decided = epoch := hs
      exact jointly_of_stopped _ (fun i => rounds_revoke (hm i) (ht i))
        fun _ _ he => ⟨.aborted decided, .inl rfl, phases, he⟩
    | indeterminate decided phase =>
      simp only [applyCommitOutcome, hs]
      exact bind <| jointly_modify <| jointly_throw
        ⟨.indeterminate epoch phase, .inr ⟨phase, rfl⟩, phases, fun i => (hm i).uncertain phase⟩
  · simp only [applyCommitOutcome, hs]
    exact jointly_rollbackFailure hm ht _

theorem jointly_commitObservationTransaction (hs : Sound permitted) (hu : Uniform ranks) :
    Decides permitted ranks epoch before
      (fun i => commitObservationTransaction (ranks i) (checkpoints i)) states := by
  refine bind (jointly_get ?_)
  simp only [fun i => (hm i).active]
  refine bind ((jointly_deliverObservation hm ht hs hu).mono ?_ fun _ _ => id)
  rintro _ delivered ⟨phases, hd⟩
  exact bind (jointly_ask fun outcome _ => jointly_applyCommitOutcome hd ht outcome)

theorem jointly_publish (hs : Sound permitted) (hu : Uniform ranks) (outputs : ι → O) :
    Decides permitted ranks epoch before
      (fun i => publish (ranks i) (outputs i) (checkpoints i)) states := by
  refine bind (jointly_outside (fun i => outside_completeOutput _ _) ?_)
  intro completions worlds
  have hc : AllMidway ranks epoch (.mechanismCompletion :: phases) before _ .executed :=
    fun i => ((hm i).withWorld (worlds i)).enterExecuted .mechanismCompletion
  refine bind (jointly_ballot hs .vote ?_ ?_)
  · intro _ _
    refine bind ((jointly_commitObservationTransaction hc ht hs hu).mono ?_ fun _ _ => id)
    exact fun _ _ hco => jointly_pure hco
  · exact fun causes => jointly_rollbackFailure hc ht causes

end Executed

theorem jointly_withObservationTransaction {operation : ι → SessionM μ ω E T α}
    (hj : Decides permitted ranks epoch before operation before) :
    Decides permitted ranks epoch before
      (fun i => withObservationTransaction (ranks i) (operation i)) before := by
  refine bind (jointly_get (bind (jointly_attempt (hj.mono ?_ ?_))))
  · rintro values after ⟨phases, he⟩
    refine bind (jointly_outside (fun i => outside_finishGuard _ _ _) ?_)
    exact fun _ worlds => jointly_pure ⟨phases, fun i => (he i).withWorld (worlds i)⟩
  · rintro causes after ⟨outcome, hu, phases, he⟩
    refine bind (jointly_outside (fun i => outside_finishGuard _ _ _) ?_)
    exact fun _ worlds => jointly_throw ⟨outcome, hu, phases, fun i => (he i).withWorld (worlds i)⟩

theorem jointly_executeInputResultWithObserver (hs : Sound permitted) (unagreed : Bool)
    {plan : Plan} (concert : InConcert ranks plan) (ha : ∀ i, Accepts epoch (before i)) :
    Jointly permitted (fun i => executeInputResultWithObserver (ranks i) unagreed) before
      (fun results after => Uniform ranks ∧ AllTaken ranks before (fun i => (results i).2.1) ∧
        ∃ phases, AllMidway ranks epoch phases before after .executed)
      fun _ => GivenUp ranks epoch before := by
  refine bind
    ((jointly_executeInputResultBeforePublication hs unagreed concert ha).mono ?_ fun _ _ => id)
  rintro results after ⟨hu, ht, phases, he⟩
  exact (jointly_publishObservedOutputTransaction he ht hs _ _).mono
    (fun _ _ hp => ⟨hu, hp⟩) fun _ _ => id

theorem jointly_sequenceOutputWithObserver (hs : Sound permitted) (unagreed : Bool)
    {plan : Plan} (concert : InConcert ranks plan) (ha : ∀ i, Accepts epoch (before i)) :
    Decides permitted ranks epoch before
      (fun i => sequenceOutputWithObserver (ranks i) unagreed) before := by
  refine jointly_withObservationTransaction (bind
    ((jointly_executeInputResultWithObserver hs unagreed concert ha).mono ?_ fun _ _ => id))
  rintro results after ⟨hu, ht, phases, he⟩
  exact jointly_publish he ht hs hu _

def Rank.Selects (rank : Rank μ χ φ ω O E T) : Prop :=
  ∀ index, rank.indexTextOutput = some index → ∀ output world,
    ∃ selected, (index output world).1 = .ok selected

theorem Rank.Selects.rounds_selectTextOutput {rank : Rank μ χ φ ω O E T} (hs : rank.Selects)
    (output : O) (state : State μ ω) :
    ∃ selected world, (selectTextOutput rank output).rounds state =
      .done (.ok (.ok selected), { state with world := world }) := by
  unfold selectTextOutput
  cases hi : rank.indexTextOutput with
  | none => exact ⟨output, state.world, rfl⟩
  | some select =>
    obtain ⟨selected, hsa⟩ := hs select hi output state.world
    simp only [callWorld, rounds_act, hsa]
    exact ⟨selected, _, rfl⟩

theorem outside_selectTextOutput (rank : Rank μ χ φ ω O E T) (output : O) :
    Outside (selectTextOutput rank output) := by
  unfold selectTextOutput
  split
  · exact outside_callWorld _ _
  · exact outside_pure _

/-- No vote is held on the selection. It keeps the ranks together if no rank can fail there, and it
does not matter to a rank that is alone. -/
theorem jointly_selectTextOutput (ht : (∀ i, (ranks i).Selects) ∨ Subsingleton ι) (outputs : ι → O)
    {returned : (ι → Except (SessionError E) O) → (ι → State μ ω) → Prop}
    (hs : ∀ (values : ι → O) (worlds : ι → ω), returned (fun i => .ok (values i))
      fun i => { states i with world := worlds i })
    (hf : ∀ (causes : ι → SessionError E) (worlds : ι → ω),
      returned (fun i => .error (causes i)) fun i => { states i with world := worlds i }) :
    Jointly permitted (fun i => selectTextOutput (ranks i) (outputs i)) states returned stopped := by
  rcases ht with hse | ha
  · choose values worlds hsa using fun i => (hse i).rounds_selectTextOutput (outputs i) (states i)
    unfold Jointly
    simp only [hsa]
    exact .done _ (.inl ⟨_, _, rfl, hs values worlds⟩)
  · refine jointly_outside (fun i => outside_selectTextOutput _ _) fun values worlds => ?_
    rcases together_of_subsingleton values with ⟨selected, rfl⟩ | ⟨causes, rfl⟩
    · exact hs selected worlds
    · exact hf causes worlds

theorem jointly_inputResultTransaction (hs : Sound permitted) (unagreed required : Bool)
    {plan : Plan} (concert : InConcert ranks plan)
    (ht : (∀ i, (ranks i).Selects) ∨ Subsingleton ι) (ha : ∀ i, Accepts epoch (before i)) :
    Decides permitted ranks epoch before
      (fun i => inputResultTransaction (ranks i) unagreed required) before := by
  apply jointly_withObservationTransaction
  by_cases hb : (required && unagreed) = true
  · simp only [requireInputResultAgreement, hb]
    refine bind (bind ((jointly_beginCommitEpoch ha).mono ?_ fun _ _ => id))
    exact fun _ _ ho => jointly_abortWithoutRollback ho.2 _
  · simp only [requireInputResultAgreement, hb]
    refine bind (jointly_pure (bind
      ((jointly_executeInputResultWithObserver hs unagreed concert ha).mono ?_ fun _ _ => id)))
    rintro results after ⟨hu, hta, phases, he⟩
    refine bind (jointly_selectTextOutput ht _ ?_ ?_)
    · exact fun values worlds =>
        jointly_publish (fun i => (he i).withWorld (worlds i)) hta hs hu values
    · exact fun causes worlds =>
        jointly_rollbackFailure (fun i => (he i).withWorld (worlds i)) hta causes

end Stages

end Eredu.Session
