import Eredu.Session.Commitment

/-!
# What a session computes on

One session takes steps one after the other, with any failures of its mechanisms,
of the votes and of the commit. Its trace tells which runs of the model were
committed. `settled` is the model state those runs produced, in order. A session
that begins a step on another state computes on work that was never committed.

Restorations may fail. The code records the abort of a step and takes the next one
whether or not the restoration that the abort stands for succeeded. So the results
below speak about the steps that no failed restoration precedes.
-/

namespace Eredu.Session

open Participant

variable {μ χ φ ω O E T : Type}

/-- The model state that the latest run of the model produced. -/
def computed : List (Act μ) → Option μ
  | [] => none
  | .ran _ after :: _ => some after
  | _ :: earlier => computed earlier

/-- The model state that the committed runs produced, the one after the other. -/
def settled (initial : μ) : List (Act μ) → μ
  | [] => initial
  | .concluded (.committed _) :: earlier => (computed earlier).getD (settled initial earlier)
  | _ :: earlier => settled initial earlier

def Justified (initial : μ) (earlier : List (Act μ)) : Act μ → Prop
  | .accepted epoch model =>
      (.restoring false ∉ earlier → model = settled initial earlier) ∧
      (∀ former state, .accepted former state ∈ earlier → former < epoch) ∧
      ∀ outcome, .concluded outcome ∈ earlier → outcome.isIndeterminate = false
  | .ran before _ => .restoring false ∉ earlier → before = settled initial earlier
  | _ => True

/-- Everything in a trace was justified when it was done. -/
def Grounded (initial : μ) : List (Act μ) → Prop
  | [] => True
  | act :: earlier => Justified initial earlier act ∧ Grounded initial earlier

variable {initial : μ}

theorem Grounded.justified {trace : List (Act μ)} (hg : Grounded initial trace)
    {later earlier : List (Act μ)} {act : Act μ} (hs : trace = later ++ act :: earlier) :
    Justified initial earlier act := by
  induction later generalizing trace with
  | nil =>
    subst hs
    exact hg.1
  | cons last later ih =>
    subst hs
    exact ih hg.2 rfl

@[simp] theorem settled_votes (votes : List Phase) (acts : List (Act μ)) :
    settled initial (votes.map .entered ++ acts) = settled initial acts := by
  induction votes with
  | nil => rfl
  | cons vote votes ih => exact ih

theorem Grounded.votes {acts : List (Act μ)} (grounded : Grounded initial acts)
    (votes : List Phase) : Grounded initial (votes.map .entered ++ acts) := by
  induction votes with
  | nil => exact grounded
  | cons vote votes ih => exact ⟨trivial, ih⟩

/-- What the story of a step adds to a trace. -/
def Stage.Adds (initial : μ) (acts before : List (Act μ)) (model : μ) : Stage → Prop
  | .opened => settled initial (acts ++ before) = settled initial before
  | .executed => settled initial (acts ++ before) = settled initial before ∧
      computed (acts ++ before) = some model
  | .ended (.committed _) => settled initial (acts ++ before) = model
  | .ended _ => settled initial (acts ++ before) = settled initial before

variable {acts : List (Act μ)} {exact : Prop} {stage : Stage} {start model : μ}

variable {epoch : Nat}

theorem Story.adds (hs : Story exact epoch start stage acts model) (initial : μ)
    (before : List (Act μ)) : stage.Adds initial acts before model := by
  induction hs with
  | accepted => rfl
  | enteredOpened _ _ _ ih | checkpointed _ ih | abandoned _ ih => exact ih
  | ran votes after _ ih =>
    refine ⟨?_, rfl⟩
    simpa [Stage.Adds, settled] using ih
  | enteredExecuted _ _ ih => exact ih
  | rolledBack _ _ _ ih | revoked _ _ _ ih => exact ih.1
  | committed _ ih => simp [Stage.Adds, settled, ih.2]
  | uncertain _ _ ih => exact ih.1

/-- An aborted step leaves the model state it began with, unless its restoration failed. -/
theorem Story.model_aborted {epoch decided : Nat}
    (hs : Story exact epoch start (.ended (.aborted decided)) acts model) (hh : exact)
    (hre : .restoring false ∉ acts) : model = start := by
  cases hs with
  | abandoned he => exact he.model_opened
  | rolledBack success _ hr | revoked success _ hr =>
    cases success with
    | true => exact hr hh rfl
    | false => exact absurd (by simp) hre

theorem Story.epoch_of_accepted {epoch former : Nat} {state : μ}
    (hs : Story exact epoch start stage acts model) (mem : .accepted former state ∈ acts) :
    former = epoch := by
  induction hs with
  | accepted => exact (Act.accepted.inj (List.mem_singleton.mp mem)).1
  | _ => simp_all

theorem Story.grounded {before : List (Act μ)} (hs : Story exact epoch start stage acts model)
    (ha : Justified initial before (.accepted epoch start)) (hg : Grounded initial before) :
    Grounded initial (acts ++ before) := by
  induction hs with
  | accepted => exact ⟨ha, hg⟩
  | enteredOpened _ _ _ ih | checkpointed _ ih | abandoned _ ih | enteredExecuted _ _ ih
  | committed _ ih | uncertain _ _ ih => exact ⟨trivial, ih⟩
  | ran votes after he ih =>
    rw [List.cons_append, List.cons_append, List.append_assoc]
    refine ⟨trivial, fun hu => ?_, ih.votes votes⟩
    have kept : settled initial (_ ++ before) = settled initial before := he.adds initial before
    rw [settled_votes, kept, he.model_opened]
    exact ha.1 fun hb => hu (by simp [hb])
  | rolledBack _ _ _ ih | revoked _ _ _ ih => exact ⟨trivial, trivial, ih⟩

theorem Story.outcome_of_concluded {outcome recorded : CommitOutcome}
    (hs : Story exact epoch start (.ended outcome) acts model) (mem : .concluded recorded ∈ acts) :
    recorded = outcome := by
  have ho : outcomes acts = [outcome] := hs.account.1
  have hl : recorded ∈ outcomes acts := List.mem_filterMap.mpr ⟨_, mem, rfl⟩
  simpa [ho] using hl

/-- What holds of a session between its steps. -/
structure Steady (initial : μ) (state : State μ ω) : Prop where
  idle : state.activeCommitEpoch = none
  grounded : Grounded initial state.trace
  model : .restoring false ∉ state.trace →
    (∀ outcome, .concluded outcome ∈ state.trace → outcome.isIndeterminate = false) →
    state.model = settled initial state.trace
  epochs : ∀ epoch model, .accepted epoch model ∈ state.trace → epoch < state.nextCommitEpoch
  unresolved : ∀ outcome, .concluded outcome ∈ state.trace → outcome.isIndeterminate = true →
    ∃ last, state.lastCommitOutcome = some last ∧ last.isIndeterminate = true

variable {state : State μ ω}

section

variable (hs : Steady initial state)
include hs

theorem Steady.withWorld (world : ω) : Steady initial { state with world := world } :=
  ⟨hs.idle, hs.grounded, hs.model, hs.epochs, hs.unresolved⟩

theorem Steady.resolved (ha : Accepts epoch state)
    (outcome : CommitOutcome) (mem : .concluded outcome ∈ state.trace) :
    outcome.isIndeterminate = false := by
  by_contra hu
  obtain ⟨last, hsa, hi⟩ := hs.unresolved outcome mem (by simpa using hu)
  simp [ha.resolved last hsa] at hi

theorem Steady.accepted (ha : Accepts epoch state) :
    Justified initial state.trace (.accepted epoch state.model) := by
  refine ⟨fun hu => hs.model hu (hs.resolved ha), ?_, hs.resolved ha⟩
  intro former model mem
  rw [← ha.next]
  exact hs.epochs former model mem

end

variable {before after : State μ ω}

theorem Ended.steady {phases : List Phase}
    {outcome : CommitOutcome} (hh : exact) (he : Ended exact epoch phases before after outcome)
    (hs : Steady initial before) (ha : Accepts epoch before) : Steady initial after := by
  obtain ⟨acts, ht, _, hst⟩ := he.since
  have hr := hs.resolved ha
  refine ⟨he.active, ?_, ?_, ?_, ?_⟩
  · rw [ht]
    exact hst.grounded (hs.accepted ha) hs.grounded
  · rw [ht]
    intro hun hk
    have hu : .restoring false ∉ before.trace := fun hb => hun (List.mem_append_right _ hb)
    have had := hst.adds initial before.trace
    cases outcome with
    | committed decided => exact had.symm
    | aborted decided =>
      have hsa : after.model = before.model :=
        hst.model_aborted hh fun hb => hun (List.mem_append_left _ hb)
      exact hsa.trans ((hs.model hu hr).trans had.symm)
    | indeterminate decided phase =>
      have recorded : CommitOutcome.indeterminate decided phase ∈ outcomes acts := by
        simp [hst.account.1]
      obtain ⟨act, mem, hsa⟩ := List.mem_filterMap.mp recorded
      cases act with
      | concluded outcome =>
        obtain rfl : outcome = .indeterminate decided phase := by simpa [Act.outcome?] using hsa
        cases hk _ (List.mem_append_left _ mem)
      | _ => cases hsa
  · rw [ht, he.next]
    intro former model mem
    rcases List.mem_append.mp mem with new | old
    · rw [hst.epoch_of_accepted new]
      exact Nat.lt_succ_self epoch
    · have := hs.epochs former model old
      have := ha.next
      omega
  · rw [ht]
    intro recorded mem hu2
    rcases List.mem_append.mp mem with new | old
    · obtain rfl := hst.outcome_of_concluded new
      exact ⟨recorded, he.last, hu2⟩
    · simp [hr recorded old] at hu2

/-- What the rounds may tell a rank that knows nothing of the others: a vote is agreed only if the
rank cast it. -/
def heard (T : Type) : Rounds.Answers Unit Ballot (Verdict T)
  | .vote _, ballots, verdict => verdict = .ok true → ballots () = true
  | .commit _, _, _ => True

theorem sound_heard : Sound (heard T) := fun _ _ hp _ => hp rfl

/-- The session takes one step, with any failures, and comes out in another state. Restorations that
succeed are exact. -/
def Takes (χ φ O E T : Type) (before after : State μ ω) : Prop :=
  ∃ (rank : Rank μ χ φ ω O E T) (unagreed : Bool) (entry : Entry)
    (ending : Except (SessionError E) O), rank.Exact ∧
    Rounds.Runs (heard T) (fun _ => (step rank unagreed entry).rounds before)
      fun _ => (ending, after)

theorem Steady.takes (hst : Steady initial before)
    (ht : Takes χ φ O E T before after) : Steady initial after := by
  obtain ⟨rank, unagreed, entry, ending, hex, run⟩ := ht
  by_cases hac : ∃ epoch, Accepts epoch before
  · obtain ⟨epoch, ha⟩ := hac
    have hj : Jointly (heard T) (fun _ => step rank unagreed entry) (fun _ => before) _ _ :=
      jointly_step sound_heard unagreed entry ⟨fun _ => rfl, .inr inferInstance⟩
        (.inr (.inl inferInstance)) fun _ => ha
    rcases hj.runs run with ⟨values, states, hs, phases, he⟩ | ⟨causes, states, hs, _, _, _, he⟩
    · obtain rfl : after = states () := (Prod.mk.inj (congrFun hs ())).2
      exact (he ()).steady hex hst ha
    · obtain rfl : after = states () := (Prod.mk.inj (congrFun hs ())).2
      exact (he ()).steady hex hst ha
  · have hj : Jointly (heard T) (fun _ => step rank unagreed entry) (fun _ => before) _ _ :=
      jointly_step_refused (fun _ epoch ha => hac ⟨epoch, ha⟩) unagreed entry
    rcases hj.runs run with ⟨values, states, hs, hi⟩ | ⟨causes, states, hs, hu⟩
    · exact hi.elim
    · obtain rfl : after = states () := (Prod.mk.inj (congrFun hs ())).2
      obtain ⟨world, hun⟩ := hu ()
      rw [hun]
      exact hst.withWorld world

/-- In every sequence of steps of a new session, each step begins and the model runs on exactly what
the committed runs produced, unless a restoration failed before. Epochs increase, and no step is
taken after an outcome that is not known. -/
theorem computes_on_committed_state {initial : μ} {session final : State μ ω}
    (fresh : session.trace = []) (idle : session.activeCommitEpoch = none)
    (start : session.model = initial)
    (run : Relation.ReflTransGen (Takes χ φ O E T) session final) :
    ∀ later act earlier, final.trace = later ++ act :: earlier → Justified initial earlier act := by
  have hs : Steady initial final := by
    induction run with
    | refl =>
      refine ⟨idle, ?_, ?_, ?_, ?_⟩ <;> rw [fresh]
      · trivial
      · exact fun _ _ => start
      · exact fun _ _ mem => absurd mem (List.not_mem_nil)
      · exact fun _ mem => absurd mem (List.not_mem_nil)
    | tail _ ht ih => exact ih.takes ht
  exact fun _ _ _ hsp => hs.grounded.justified hsp

theorem countingRank_exact : countingRank.Exact := by
  rintro model world checkpoint ⟨⟩ left _
  rfl

def afterFirst (outcome : CommitOutcome) (model : Nat) (trace : List (Act Nat)) : State Nat Unit :=
  { newSession with
    model
    nextCommitEpoch := 2
    lastCommitOutcome := some outcome
    trace := .concluded outcome :: trace }

def countedOnce : State Nat Unit :=
  afterFirst (.committed 1) 1 [.entered .mechanismCompletion, .entered .outputPublication,
    .entered .outputObservation, .entered .execution, .ran 0 1, .entered .stateCheckpoint,
    .checkpointed, .entered .observationParticipation, .entered .inputPreparation, .accepted 1 0]

theorem takes_counted : Takes Nat Unit Unit String Unit newSession countedOnce := by
  refine ⟨countingRank, false, .sequenceOutput, .ok (), countingRank_exact, ?_⟩
  refine .enter (.vote .inputPreparation) (.ok true) (fun _ => rfl) (fun _ => rfl) ?_
  refine .enter (.vote .observationParticipation) (.ok true) (fun _ => rfl) (fun _ => rfl) ?_
  refine .enter (.vote .stateCheckpoint) (.ok true) (fun _ => rfl) (fun _ => rfl) ?_
  refine .enter (.vote .execution) (.ok true) (fun _ => rfl) (fun _ => rfl) ?_
  refine .enter (.vote .outputObservation) (.ok true) (fun _ => rfl) (fun _ => rfl) ?_
  refine .enter (.vote .outputPublication) (.ok true) (fun _ => rfl) (fun _ => rfl) ?_
  refine .enter (.vote .mechanismCompletion) (.ok true) (fun _ => rfl) (fun _ => rfl) ?_
  refine .enter (.commit 1) (.committed 1) (fun _ => rfl) trivial ?_
  exact .done fun _ => rfl

/-- A session gives up a step because its ranks cannot agree on the input. -/
def inputRefused (state : State Nat Unit) : State Nat Unit :=
  ((state.accept (state.nextCommitEpoch + 1)).note (.entered .inputPreparation)).takeAborted

theorem takes_inputRefused {outcome : CommitOutcome} (hk : outcome.isIndeterminate = false)
    (model : Nat) (trace : List (Act Nat)) :
    Takes Nat Unit Unit String Unit (afterFirst outcome model trace)
      (inputRefused (afterFirst outcome model trace)) := by
  refine ⟨countingRank, false, .sequenceOutput,
    .error (.beforeStateMutation (.contract "no agreement")), countingRank_exact, ?_⟩
  cases outcome with
  | indeterminate => cases hk
  | _ =>
    refine .enter (.vote .inputPreparation) (.error ()) (fun _ => rfl) nofun ?_
    exact .done fun _ => rfl

theorem computes_on_committed_state_counted : (inputRefused countedOnce).trace =
      [.concluded (.aborted 2), .entered .inputPreparation] ++ .accepted 2 1 :: countedOnce.trace ∧
    Justified 0 countedOnce.trace (.accepted 2 1) :=
  ⟨rfl, computes_on_committed_state rfl rfl rfl
    ((Relation.ReflTransGen.single takes_counted).tail (takes_inputRefused rfl _ _))
    [.concluded (.aborted 2), .entered .inputPreparation] _ _ rfl⟩

def brokenRank : Rank Nat Nat Unit Unit Unit String Unit :=
  { countingRank with
    finish left := (.error (.architecture "failed run"), left.1 + 7, left.2)
    restoreState _ left := (.error "failed restoration", left) }

theorem brokenRank_exact : brokenRank.Exact := by
  rintro model world checkpoint - left ⟨⟩

def brokenOnce : State Nat Unit :=
  afterFirst (.aborted 1) 7 [.restoring false, .entered .execution, .ran 0 7,
    .entered .stateCheckpoint, .checkpointed, .entered .observationParticipation,
    .entered .inputPreparation, .accepted 1 0]

theorem takes_broken : Takes Nat Unit Unit String Unit newSession brokenOnce := by
  refine ⟨brokenRank, false, .sequenceOutput, .error (.mechanism "failed restoration"),
    brokenRank_exact, ?_⟩
  refine .enter (.vote .inputPreparation) (.ok true) (fun _ => rfl) (fun _ => rfl) ?_
  refine .enter (.vote .observationParticipation) (.ok true) (fun _ => rfl) (fun _ => rfl) ?_
  refine .enter (.vote .stateCheckpoint) (.ok true) (fun _ => rfl) (fun _ => rfl) ?_
  refine .enter (.vote .execution) (.ok false) (fun _ => rfl) nofun ?_
  exact .done fun _ => rfl

/-- After a failed restoration the session begins its second step on the state 7 that an aborted run
left behind. No step was committed, so it should begin on 0. -/
theorem failed_restoration_is_accepted :
    Relation.ReflTransGen (Takes Nat Unit Unit String Unit) newSession (inputRefused brokenOnce) ∧
    (inputRefused brokenOnce).trace =
      [.concluded (.aborted 2), .entered .inputPreparation] ++ .accepted 2 7 :: brokenOnce.trace ∧
    settled 0 brokenOnce.trace = 0 :=
  ⟨(Relation.ReflTransGen.single takes_broken).tail (takes_inputRefused rfl _ _), rfl, rfl⟩

end Eredu.Session
