import Eredu.Session.Agreement

/-!
# A step commits on all ranks or on none

The joint run of a step, for any number of ranks and any pattern of failures on which
a vote is held. The ranks enter the same phases in the same order, record the same
outcome, and return an output together or fail together. A rank that ran the model
under an agreed checkpoint asks for its restoration once when the step is aborted. A
rank whose checkpoint was not agreed by all ranks never asks: nothing has been
changed yet.

The driver of a rank that cannot begin its pass returns before its first vote. The
vote of the session is then counted with the first vote in the drivers of its peers,
and the peers wait in a vote that this rank does not enter.
-/

namespace Eredu.Session

open Participant

variable {μ χ φ ω O E T ι : Type} {permitted : Rounds.Answers ι Ballot (Verdict T)}
  {ranks : ι → Rank μ χ φ ω O E T} {before : ι → State μ ω}

/-- Only the world of a rank has changed. -/
def Untouched (before after : ι → State μ ω) : Prop :=
  ∀ i, ∃ world, after i = { before i with world := world }

theorem jointly_beginCommitEpoch_refused (hr : ∀ i epoch, ¬ Accepts epoch (before i))
    {returned : (ι → Nat) → (ι → State μ ω) → Prop} :
    Jointly permitted (fun _ => (beginCommitEpoch : SessionM μ ω E T Nat)) before returned
      fun _ after => after = before :=
  jointly_of_stopped (fun i after => after = before i)
    (fun i => by
      obtain ⟨cause, hs⟩ := rounds_beginCommitEpoch_refused (E := E) (T := T) (hr i)
      exact ⟨cause, _, hs, rfl⟩)
    fun _ _ hsa => funext hsa

theorem jointly_withObservationTransaction_refused {α : Type} {operation : ι → SessionM μ ω E T α}
    (hj : Jointly permitted operation before (fun _ _ => False) fun _ after => after = before)
    (ranks : ι → Rank μ χ φ ω O E T) :
    Jointly permitted (fun i => withObservationTransaction (ranks i) (operation i)) before
      (fun _ _ => False) fun _ => Untouched before := by
  refine .bind (jointly_get (Jointly.bind (jointly_attempt (hj.mono ?_ ?_))))
  · exact fun _ _ hi => hi.elim
  · intro causes after hs
    refine .bind (jointly_outside (fun i => outside_finishGuard _ _ _) ?_)
    intro _ worlds
    rw [hs]
    exact jointly_throw fun i => ⟨worlds i, rfl⟩

theorem jointly_step_refused (hr : ∀ i epoch, ¬ Accepts epoch (before i)) (unagreed : Bool)
    (entry : Entry) :
    Jointly permitted (fun i => step (ranks i) unagreed entry) before (fun _ _ => False)
      fun _ => Untouched before := by
  have he : Jointly permitted (fun i => executeInputResultWithObserver (ranks i) unagreed)
      before (fun _ _ => False) fun _ after => after = before :=
    Jointly.bind (Jointly.bind ((jointly_beginCommitEpoch_refused hr).mono
      (fun _ _ => id) fun _ _ => id))
  cases entry with
  | sequenceOutput =>
    exact jointly_withObservationTransaction_refused
      (Jointly.bind (he.mono (fun _ _ hi => hi.elim) fun _ _ => id)) ranks
  | inputResult required =>
    apply jointly_withObservationTransaction_refused
    by_cases hb : (required && unagreed) = true
    · simp only [requireInputResultAgreement, hb]
      exact .bind (Jointly.bind ((jointly_beginCommitEpoch_refused hr).mono
        (fun _ _ => id) fun _ _ => id))
    · simp only [requireInputResultAgreement, hb]
      exact .bind (jointly_pure
        (Jointly.bind (he.mono (fun _ _ hi => hi.elim) fun _ _ => id)))

theorem jointly_step (hs : Sound permitted) (unagreed : Bool) (entry : Entry) {epoch : Nat}
    {plan : Plan} (concert : InConcert ranks plan)
    (ht : (∀ i, (ranks i).Selects) ∨ Subsingleton ι ∨ entry = .sequenceOutput)
    (ha : ∀ i, Accepts epoch (before i)) :
    Decides permitted ranks epoch before (fun i => step (ranks i) unagreed entry) before := by
  cases entry with
  | sequenceOutput => exact jointly_sequenceOutputWithObserver hs unagreed concert ha
  | inputResult required =>
    have ht : (∀ i, (ranks i).Selects) ∨ Subsingleton ι := by simpa using ht
    exact jointly_inputResultTransaction hs unagreed required concert ht ha

/-- What a rank did in a step: the phases it entered, the outcomes it recorded and, unless the step
was committed or its outcome is not known, that it asked for a restoration exactly if it had passed
the vote on the checkpoints. -/
def Reports (phases : List Phase) (recorded : List CommitOutcome) (before after : State μ ω) :
    Prop :=
  ∃ acts, after.trace = acts ++ before.trace ∧ entered acts = phases ∧ outcomes acts = recorded ∧
    (∀ outcome ∈ recorded, after.lastCommitOutcome = some outcome) ∧
    ((∀ outcome ∈ recorded, ∃ epoch, outcome = .aborted epoch) →
      restorings acts = if Phase.execution ∈ phases then 1 else 0)

def newSession : State Nat Unit where
  model := 0
  world := ()
  activeCommitEpoch := none
  nextCommitEpoch := 1
  lastCommitOutcome := none
  controlFence := none
  successfulStateRestorations := some 0
  trace := []

def countingRank : Rank Nat Nat Unit Unit Unit String Unit where
  transport _ := .contract "no agreement"
  input := .ok ()
  checkpointState model world := (.ok model, world)
  restoreState checkpoint left := (.ok (), checkpoint, left.2)
  plan := ⟨[], [], []⟩
  participates _ := true
  work _ left := (.ok (), left)
  finish left := (.ok ((), ()), left.1 + 1, left.2)
  describe _ := "no agreement"
  outputScored _ := true
  observeOutput output world := (.ok output, world)
  publishObservedOutput output world := (.ok output, world)
  indexTextOutput := none
  complete _ _ world := (.ok (), world)
  completeTextPrefill := false
  exactCompletion := false
  exactCompletionAvailable := true
  transactional := false
  prepareTransaction _ world := (.ok (), world)
  coordinateTransaction _ world := (.ok (), world)
  completeTransaction _ world := (.ok (), world)
  finishTransaction _ _ world := world

end Eredu.Session
