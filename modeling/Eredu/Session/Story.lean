import Eredu.Session.Driving
import Eredu.Session.Step

/-!
# What one step does on a rank

`Story` lists, event by event, everything a rank can have done in a step that was
given an epoch, together with the model state it has by then. The step is *open*
until the model runs, *executed* until an outcome is recorded, and *ended* after
that. What is said about steps later is read off a story, not off the code.

`Midway` and `Ended` say where a rank stands: the story of its step so far, the
phases it entered and the fields of its session.
-/

namespace Eredu.Session

open Participant Act Option Rounds State

variable {μ χ φ ω O E T α : Type}

namespace Act

def phase? : Act μ → Option Phase
  | entered phase => some phase
  | _ => none

def outcome? : Act μ → Option CommitOutcome
  | concluded outcome => some outcome
  | _ => none

def isRestoring : Act μ → Bool
  | restoring _ => true
  | _ => false

end Act

variable (acts : List (Act μ))

/-- The phases a rank entered, the latest first. -/
def entered : List Phase := acts.filterMap phase?

def outcomes : List CommitOutcome := acts.filterMap outcome?

def restorings : Nat := acts.countP isRestoring

@[simp] theorem entered_nil : entered ([] : List (Act μ)) = [] := rfl

variable (act : Act μ)

@[simp] theorem entered_cons (acts : List (Act μ)) :
    entered (act :: acts) = act.phase?.toList ++ entered acts := by
  cases act <;> rfl

@[simp] theorem outcomes_nil : outcomes ([] : List (Act μ)) = [] := rfl

@[simp] theorem outcomes_cons (acts : List (Act μ)) :
    outcomes (act :: acts) = act.outcome?.toList ++ outcomes acts := by
  cases act <;> rfl

@[simp] theorem restorings_nil : restorings ([] : List (Act μ)) = 0 := rfl

@[simp] theorem restorings_cons (acts : List (Act μ)) :
    restorings (act :: acts) = restorings acts + if act.isRestoring then 1 else 0 :=
  List.countP_cons

section Votes

variable (votes : List Phase) (acts : List (Act μ))

@[simp] theorem entered_votes : entered (votes.map .entered ++ acts) = votes ++ entered acts := by
  induction votes with
  | nil => rfl
  | cons vote votes ih => simp [ih, phase?]

@[simp] theorem outcomes_votes : outcomes (votes.map .entered ++ acts) = outcomes acts := by
  induction votes with
  | nil => rfl
  | cons vote votes ih => simp [ih, outcome?]

@[simp] theorem restorings_votes : restorings (votes.map .entered ++ acts) = restorings acts := by
  induction votes with
  | nil => rfl
  | cons vote votes ih => simp [ih, isRestoring]

end Votes

inductive Stage where
  | opened
  | executed
  | ended (outcome : CommitOutcome)

/-- What a rank can have done since it was given an epoch, the latest first. Under `exact`, a
restoration that succeeds brings the model state of the start back. -/
inductive Story (exact : Prop) (epoch : Nat) (start : μ) : Stage → List (Act μ) → μ → Prop where
  | accepted : Story exact epoch start .opened [.accepted epoch start] start
  | enteredOpened {acts : List (Act μ)} {model : μ} (phase : Phase) (early : phase ≠ .execution)
      (earlier : Story exact epoch start .opened acts model) :
      Story exact epoch start .opened (.entered phase :: acts) model
  | checkpointed {acts : List (Act μ)} {model : μ}
      (earlier : Story exact epoch start .opened acts model) :
      Story exact epoch start .opened (.checkpointed :: acts) model
  | abandoned {acts : List (Act μ)} {model : μ}
      (earlier : Story exact epoch start .opened acts model) :
      Story exact epoch start (.ended (.aborted epoch)) (.concluded (.aborted epoch) :: acts) model
  | ran {acts : List (Act μ)} {model : μ} (votes : List Phase) (after : μ)
      (earlier : Story exact epoch start .opened acts model) :
      Story exact epoch start .executed
        (.entered .execution :: .ran model after :: (votes.map .entered ++ acts)) after
  | enteredExecuted {acts : List (Act μ)} {model : μ} (phase : Phase)
      (earlier : Story exact epoch start .executed acts model) :
      Story exact epoch start .executed (.entered phase :: acts) model
  | rolledBack {acts : List (Act μ)} {model after : μ} (success : Bool)
      (earlier : Story exact epoch start .executed acts model)
      (restores : exact → success = true → after = start) :
      Story exact epoch start (.ended (.aborted epoch))
        (.concluded (.aborted epoch) :: .restoring success :: acts) after
  | revoked {acts : List (Act μ)} {model after : μ} (success : Bool)
      (earlier : Story exact epoch start .executed acts model)
      (restores : exact → success = true → after = start) :
      Story exact epoch start (.ended (.aborted epoch))
        (.restoring success :: .concluded (.aborted epoch) :: acts) after
  | committed {acts : List (Act μ)} {model : μ}
      (earlier : Story exact epoch start .executed acts model) :
      Story exact epoch start (.ended (.committed epoch))
        (.concluded (.committed epoch) :: acts) model
  | uncertain {acts : List (Act μ)} {model : μ} (phase : CommitPhase)
      (earlier : Story exact epoch start .executed acts model) :
      Story exact epoch start (.ended (.indeterminate epoch phase))
        (.concluded (.indeterminate epoch phase) :: acts) model

/-- The account a story gives: who has been given up, and who has asked for the checkpoint. -/
def Stage.Account (epoch : Nat) (acts : List (Act μ)) : Stage → Prop
  | .opened => restorings acts = 0 ∧ outcomes acts = [] ∧ Phase.execution ∉ entered acts
  | .executed => restorings acts = 0 ∧ outcomes acts = [] ∧ Phase.execution ∈ entered acts
  | .ended outcome => outcomes acts = [outcome] ∧ outcome.epoch = epoch ∧
      (outcome = .aborted epoch → restorings acts = if Phase.execution ∈ entered acts then 1 else 0)

variable {epoch : Nat} {exact : Prop} {acts : List (Act μ)} {start model : μ}

theorem Story.account {stage : Stage}
    (hs : Story exact epoch start stage acts model) : stage.Account epoch acts := by
  induction hs with
  | accepted => simp [Stage.Account, isRestoring, outcome?, phase?]
  | enteredOpened phase he _ ih =>
    simpa [Stage.Account, isRestoring, outcome?, phase?, Ne.symm he] using ih
  | checkpointed _ ih => simpa [Stage.Account, isRestoring, outcome?, phase?] using ih
  | abandoned _ ih =>
    obtain ⟨ha, hn, he⟩ := ih
    simp [Stage.Account, isRestoring, outcome?, phase?, CommitOutcome.epoch, ha, hn, he]
  | ran votes after _ ih =>
    obtain ⟨ha, hn, _⟩ := ih
    simp [Stage.Account, isRestoring, outcome?, phase?, ha, hn]
  | enteredExecuted phase _ ih =>
    obtain ⟨ha, hn, hl⟩ := ih
    simp [Stage.Account, isRestoring, outcome?, phase?, ha, hn, hl]
  | rolledBack success _ _ ih | revoked success _ _ ih =>
    obtain ⟨ha, hn, hl⟩ := ih
    simp [Stage.Account, isRestoring, outcome?, phase?, CommitOutcome.epoch, ha, hn, hl]
  | committed _ ih | uncertain phase _ ih =>
    simp [Stage.Account, outcome?, CommitOutcome.epoch, ih.2.1]

theorem Story.model_opened (hs : Story exact epoch start .opened acts model) : model = start := by
  generalize hr : Stage.opened = stage at hs
  induction hs with
  | accepted => rfl
  | enteredOpened _ _ _ ih | checkpointed _ ih => exact ih rfl
  | _ => cases hr

def Since (exact : Prop) (epoch : Nat) (phases : List Phase) (before now : State μ ω)
    (stage : Stage) : Prop :=
  ∃ acts, now.trace = acts ++ before.trace ∧ entered acts = phases ∧
    Story exact epoch before.model stage acts now.model

/-- A rank in a step that has been given an epoch. -/
structure Midway (exact : Prop) (epoch : Nat) (phases : List Phase) (before now : State μ ω)
    (stage : Stage) : Prop where
  active : now.activeCommitEpoch = some epoch
  next : now.nextCommitEpoch = epoch + 1
  fence : now.controlFence = before.controlFence
  last : now.lastCommitOutcome = before.lastCommitOutcome
  since : Since exact epoch phases before now stage

structure Ended (exact : Prop) (epoch : Nat) (phases : List Phase) (before now : State μ ω)
    (outcome : CommitOutcome) : Prop where
  active : now.activeCommitEpoch = none
  next : now.nextCommitEpoch = epoch + 1
  fence : now.controlFence = before.controlFence
  last : now.lastCommitOutcome = some outcome
  since : Since exact epoch phases before now (.ended outcome)

namespace Midway

variable {exact : Prop} {epoch : Nat} {phases : List Phase} {before now : State μ ω} {stage : Stage}

theorem withWorld (hm : Midway exact epoch phases before now stage) (world : ω) :
    Midway exact epoch phases before { now with world := world } stage :=
  ⟨hm.active, hm.next, hm.fence, hm.last, hm.since⟩

section

variable (hm : Midway exact epoch phases before now .opened)
include hm

theorem model_opened : now.model = before.model := by
  obtain ⟨_, _, _, hs⟩ := hm.since
  exact hs.model_opened

/-- Until the model runs, a rank may enter any phase but the execution. -/
theorem enterOpened {phase : Phase} (he : phase ≠ .execution) :
    Midway exact epoch (phase :: phases) before (now.note (.entered phase)) .opened := by
  obtain ⟨acts, ht, hsa, hs⟩ := hm.since
  exact ⟨hm.active, hm.next, hm.fence, hm.last, .entered phase :: acts,
    by simp [note, ht], by simp [phase?, hsa], .enteredOpened phase he hs⟩

end

theorem enterExecuted (hm : Midway exact epoch phases before now .executed) (phase : Phase) :
    Midway exact epoch (phase :: phases) before (now.note (.entered phase)) .executed := by
  obtain ⟨acts, ht, hsa, hs⟩ := hm.since
  exact ⟨hm.active, hm.next, hm.fence, hm.last, .entered phase :: acts,
    by simp [note, ht], by simp [phase?, hsa], .enteredExecuted phase hs⟩

section

variable (hm : Midway exact epoch phases before now .opened)
include hm

theorem checkpoint (taken : Bool) (world : ω) :
    Midway exact epoch phases before
      { now with
        world := world
        trace := if taken then .checkpointed :: now.trace else now.trace } .opened := by
  obtain ⟨acts, ht, hsa, hs⟩ := hm.since
  cases taken with
  | false => exact ⟨hm.active, hm.next, hm.fence, hm.last, acts, ht, hsa, hs⟩
  | true =>
    exact ⟨hm.active, hm.next, hm.fence, hm.last, .checkpointed :: acts,
      by simp [ht], by simp [phase?, hsa], .checkpointed hs⟩

theorem run (votes : List Phase) (model : μ) (world : ω) :
    Midway exact epoch (.execution :: (votes ++ phases)) before
      (note (.entered .execution) (note (.ran now.model model) (now.driven votes model world)))
      .executed := by
  obtain ⟨acts, ht, hsa, hs⟩ := hm.since
  exact ⟨hm.active, hm.next, hm.fence, hm.last,
    .entered .execution :: .ran now.model model :: (votes.map .entered ++ acts),
    by simp [note, driven, ht], by simp [phase?, hsa], .ran votes model hs⟩

theorem takeAborted : Ended exact epoch phases before now.takeAborted (.aborted epoch) := by
  obtain ⟨acts, ht, hsa, hs⟩ := hm.since
  simp only [State.takeAborted, hm.active]
  exact ⟨rfl, hm.next, hm.fence, rfl, .concluded (.aborted epoch) :: acts,
    by simp [ht], by simp [phase?, hsa], .abandoned hs⟩

end

section

variable (hm : Midway exact epoch phases before now .executed)
include hm

theorem committed :
    Ended exact epoch phases before (now.conclude (.committed epoch)) (.committed epoch) := by
  obtain ⟨acts, ht, hsa, hs⟩ := hm.since
  exact ⟨rfl, hm.next, hm.fence, rfl, .concluded (.committed epoch) :: acts,
    by simp [conclude, ht], by simp [phase?, hsa], .committed hs⟩

theorem uncertain (phase : CommitPhase) :
    Ended exact epoch phases before (now.conclude (.indeterminate epoch phase))
      (.indeterminate epoch phase) := by
  obtain ⟨acts, ht, hsa, hs⟩ := hm.since
  exact ⟨rfl, hm.next, hm.fence, rfl, .concluded (.indeterminate epoch phase) :: acts,
    by simp [conclude, ht], by simp [phase?, hsa], .uncertain phase hs⟩

end

end Midway

theorem Ended.withWorld {phases : List Phase} {before now : State μ ω} {outcome : CommitOutcome}
    (he : Ended exact epoch phases before now outcome) (world : ω) :
    Ended exact epoch phases before { now with world := world } outcome :=
  ⟨he.active, he.next, he.fence, he.last, he.since⟩

/-- Everything a session needs for a step, except that a `u64` may have run out of epochs. -/
structure Ready (epoch : Nat) (state : State μ ω) : Prop where
  fence : state.controlFence = none
  resolved : ∀ outcome, state.lastCommitOutcome = some outcome → outcome.isIndeterminate = false
  active : state.activeCommitEpoch = none
  next : state.nextCommitEpoch = epoch

structure Accepts (epoch : Nat) (state : State μ ω) : Prop extends Ready epoch state where
  fits : epoch + 1 < 2 ^ 64

variable {state : State μ ω}

theorem rounds_ensureCommitResolved (hf : state.controlFence = none)
    (hr : ∀ outcome, state.lastCommitOutcome = some outcome → outcome.isIndeterminate = false) :
    (ensureCommitResolved : SessionM μ ω E T Unit).rounds state = .done (.ok (), state) := by
  simp only [ensureCommitResolved, ensureControlUnfenced, rounds_bind,
    rounds_get, done_andThen, hf, rounds_pure]
  match hl : state.lastCommitOutcome with
  | none => rfl
  | some (.committed _) => rfl
  | some (.aborted _) => rfl
  | some (.indeterminate _ _) => exact absurd (hr _ hl) nofun

theorem rounds_ensureCommitResolved_refused (hu : ¬ (state.controlFence = none ∧
      ∀ outcome, state.lastCommitOutcome = some outcome → outcome.isIndeterminate = false)) :
    ∃ cause, (ensureCommitResolved : SessionM μ ω E T Unit).rounds state =
      .done (.error cause, state) := by
  cases hf : state.controlFence with
  | some phase =>
    simp only [ensureCommitResolved, ensureControlUnfenced, rounds_bind, rounds_get,
      done_andThen, hf]
    exact ⟨_, rfl⟩
  | none =>
    push Not at hu
    obtain ⟨outcome, hl, hi⟩ := hu hf
    cases outcome with
    | indeterminate epoch phase =>
      simp only [ensureCommitResolved, ensureControlUnfenced, rounds_bind, rounds_get,
        done_andThen, hf, hl, rounds_pure]
      exact ⟨_, rfl⟩
    | _ => exact absurd rfl hi

theorem Accepts.rounds_beginCommitEpoch (ha : Accepts epoch state) :
    (beginCommitEpoch : SessionM μ ω E T Nat).rounds state =
      .done (.ok epoch, state.accept (epoch + 1)) := by
  simp only [beginCommitEpoch, rounds_bind,
    rounds_ensureCommitResolved ha.fence ha.resolved, done_andThen,
    rounds_get, ha.active, ha.next, nextEpoch, ha.fits, if_true]
  rfl

theorem Ready.refused (hr : Ready epoch state) (hf : ¬ epoch + 1 < 2 ^ 64)
    (other : Nat) : ¬ Accepts other state := by
  intro ha
  obtain rfl : epoch = other := hr.next.symm.trans ha.next
  exact hf ha.fits

theorem Accepts.midway (exact : Prop) (ha : Accepts epoch state) :
    Midway exact epoch [] state (state.accept (epoch + 1)) .opened :=
  ⟨congrArg some ha.next, rfl, rfl, rfl, [.accepted epoch state.model],
    by simp [accept, ha.next], rfl, .accepted⟩

theorem rounds_beginCommitEpoch_refused (hre : ∀ epoch, ¬ Accepts epoch state) :
    ∃ cause, (beginCommitEpoch : SessionM μ ω E T Nat).rounds state =
      .done (.error cause, state) := by
  by_cases hr : state.controlFence = none ∧
      ∀ outcome, state.lastCommitOutcome = some outcome → outcome.isIndeterminate = false
  · simp only [beginCommitEpoch, rounds_bind, rounds_ensureCommitResolved hr.1 hr.2, done_andThen,
      rounds_get]
    by_cases ha : state.activeCommitEpoch = none
    · have hfu : ¬ state.nextCommitEpoch + 1 < 2 ^ 64 :=
        fun hfi => hre _ ⟨⟨hr.1, hr.2, ha, rfl⟩, hfi⟩
      simp only [ha, nextEpoch, hfu]
      exact ⟨_, rfl⟩
    · simp only [isSome_iff_ne_none.mpr ha, if_true]
      exact ⟨_, rfl⟩
  · obtain ⟨cause, hs⟩ := rounds_ensureCommitResolved_refused (E := E) (T := T) hr
    exact ⟨cause, by simp only [beginCommitEpoch, rounds_bind, hs, done_andThen]⟩

section Restorations

variable {rank : Rank μ χ φ ω O E T} {epoch : Nat} {phases : List Phase} {before now : State μ ω}
  {checkpoint : χ}

variable (rank)

def Rank.Exact : Prop :=
  ∀ model world checkpoint, (rank.checkpointState model world).1 = .ok checkpoint →
    ∀ left, (rank.restoreState checkpoint left).1 = .ok () →
      (rank.restoreState checkpoint left).2.1 = model

def Rank.TakenFrom (checkpoint : χ) (model : μ) : Prop :=
  ∃ world, (rank.checkpointState model world).1 = .ok checkpoint

variable {rank}

theorem Rank.TakenFrom.restores (ht : rank.TakenFrom checkpoint before.model) (left : μ × ω)
    (exact : rank.Exact) (hs : (rank.restoreState checkpoint left).1.toBool = true) :
    (rank.restoreState checkpoint left).2.1 = before.model := by
  obtain ⟨world, hc⟩ := ht
  apply exact _ world _ hc
  cases hr : (rank.restoreState checkpoint left).1 with
  | ok value => rfl
  | error cause => rw [hr] at hs; cases hs

theorem rounds_recordSuccessfulRestoration (restored : Except (SessionError E) Unit)
    (state : State μ ω) : ∃ result counter,
      (recordSuccessfulRestoration restored : SessionM μ ω E T Unit).rounds state =
        .done (result, { state with successfulStateRestorations := counter }) := by
  cases restored with
  | error cause => exact ⟨.error cause, state.successfulStateRestorations, rfl⟩
  | ok value => exact ⟨.ok (), _, rfl⟩

def State.restored (rank : Rank μ χ φ ω O E T) (checkpoint : χ) (state : State μ ω) : State μ ω :=
  { state with
    model := (rank.restoreState checkpoint (state.model, state.world)).2.1
    world := (rank.restoreState checkpoint (state.model, state.world)).2.2
    trace := .restoring (rank.restoreState checkpoint (state.model, state.world)).1.toBool ::
      state.trace }

theorem rounds_restoreState (state : State μ ω) : (restoreState rank checkpoint).rounds state =
      .done (.ok ((rank.restoreState checkpoint (state.model, state.world)).1.mapError .mechanism),
        state.restored rank checkpoint) := rfl

variable (hm : Midway rank.Exact epoch phases before now .executed)
  (ht : rank.TakenFrom checkpoint before.model)

include hm ht

theorem Midway.rolledBack (counter : Option Nat) : Ended rank.Exact epoch phases before
      { (now.restored rank checkpoint).takeAborted with successfulStateRestorations := counter }
      (.aborted epoch) := by
  obtain ⟨acts, htr, hsa, hs⟩ := hm.since
  have ha : (now.restored rank checkpoint).activeCommitEpoch = some epoch := hm.active
  simp only [State.takeAborted, ha]
  refine ⟨rfl, hm.next, hm.fence, rfl, .concluded (.aborted epoch) :: .restoring _ :: acts,
    ?_, by simp [phase?, hsa], .rolledBack _ hs fun exact => ht.restores _ exact⟩
  simp [State.restored, htr]

theorem Midway.revoked (counter : Option Nat) :
    Ended rank.Exact epoch phases before
      { (now.conclude (.aborted epoch)).restored rank checkpoint with
        successfulStateRestorations := counter }
      (.aborted epoch) := by
  obtain ⟨acts, htr, hsa, hs⟩ := hm.since
  refine ⟨rfl, hm.next, hm.fence, rfl, .restoring _ :: .concluded (.aborted epoch) :: acts,
    ?_, by simp [phase?, hsa], .revoked _ hs fun exact => ht.restores _ exact⟩
  simp [restored, conclude, htr]

theorem rounds_rollbackFailure (cause : SessionError E) : ∃ cause' after,
      (rollbackFailure rank checkpoint cause : SessionM μ ω E T α).rounds now =
        .done (.error cause', after) ∧
      Ended rank.Exact epoch phases before after (.aborted epoch) := by
  obtain ⟨result, counter, hr⟩ := rounds_recordSuccessfulRestoration (T := T)
    ((rank.restoreState checkpoint (now.model, now.world)).1.mapError .mechanism)
    (now.restored rank checkpoint).takeAborted
  simp only [rollbackFailure, restoreFailedWork, rounds_bind, rounds_restoreState,
    rounds_modify, done_andThen, hr]
  cases result with
  | error failure => exact ⟨failure, _, rfl, hm.rolledBack ht counter⟩
  | ok value => exact ⟨cause, _, rfl, hm.rolledBack ht counter⟩

theorem rounds_revoke : ∃ cause after,
      (applyCommitOutcome rank epoch checkpoint (.aborted epoch)).rounds now =
        .done (.error cause, after) ∧
      Ended rank.Exact epoch phases before after (.aborted epoch) := by
  obtain ⟨result, counter, hr⟩ := rounds_recordSuccessfulRestoration (T := T)
    ((rank.restoreState checkpoint (now.model, now.world)).1.mapError .mechanism)
    ((now.conclude (.aborted epoch)).restored rank checkpoint)
  simp only [applyCommitOutcome, CommitOutcome.epoch, if_true, rounds_bind,
    rounds_modify, rounds_restoreState]
  simp only [conclude] at hr ⊢
  simp only [hr, done_andThen]
  cases result with
  | error failure => exact ⟨failure, _, rfl, hm.revoked ht counter⟩
  | ok value => exact ⟨.commitAborted epoch, _, rfl, hm.revoked ht counter⟩

end Restorations

end Eredu.Session
