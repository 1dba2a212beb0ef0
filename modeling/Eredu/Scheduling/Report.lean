import Eredu.Scheduling.Frames

/-!
# The report and its peaks

`report` takes a snapshot of occupancy and telemetry. The queue and in-flight peaks
dominate the current values in every state. The peak of abandoned resources is
refreshed by cancellation, completion and poisoning, but not where preparation or
submission fails, so it dominates while no such failure abandons retained resources.
-/

namespace Eredu.Scheduling

open Std Effect List Nat Scheduler

variable {Ω W S B O : Type}

structure SchedulerReport where
  activeRequests : Nat
  queuedWork : Nat
  preparedWork : Nat
  submittedInFlightWork : Nat
  completingWork : Nat
  abandonedInFlightWork : Nat
  failedInFlightWork : Nat
  currentInFlightWork : Nat
  peakInFlightWork : Nat
  peakQueuedWork : Nat
  submittedWork : Nat
  completedWork : Nat
  failedWork : Nat
  discardedWork : Nat
  cancellationBeforeSubmission : Nat
  cancellationAfterSubmission : Nat
  abandonedReleasedWork : Nat
  abandonedRetainedResources : Nat
  peakAbandonedRetainedResources : Nat
  lastCancellationToReleaseNs : Option Nat
  maxCancellationToReleaseNs : Option Nat
  finishedRequests : Nat
  cancelledRequests : Nat
  deadlineExpiredRequests : Nat
  drainCycles : Nat
  configuredSubmissionBound : Nat
  configuredSliceBound : Nat
  poisoned : Bool
  deriving DecidableEq, Repr

variable (env : Environment Ω W S B O) (m : Machine Ω W S B O)

def report : SchedulerReport :=
  let s := m.scheduler
  let abandoned := (s.submitted.filter fun work => work.disposition matches .abandon _).length
  let failed := (s.submitted.filter fun work => work.disposition matches .fail).length
  { activeRequests := s.requests.size
    queuedWork := (s.requests.toList.map fun (_, entry) => entry.pending.length).sum
    preparedWork := s.prepared.length
    submittedInFlightWork := s.submitted.length - abandoned - failed
    completingWork := 0
    abandonedInFlightWork := abandoned
    failedInFlightWork := failed
    currentInFlightWork := s.submitted.length
    peakInFlightWork := s.peakInFlightWork
    peakQueuedWork := s.peakAcceptedWork
    submittedWork := s.submittedWork
    completedWork := s.completedWork
    failedWork := s.failedWork
    discardedWork := s.discardedWork
    cancellationBeforeSubmission := s.cancellationBeforeSubmission
    cancellationAfterSubmission := s.cancellationAfterSubmission
    abandonedReleasedWork := s.abandonedReleasedWork
    abandonedRetainedResources := abandonedRetainedResources env m
    peakAbandonedRetainedResources := s.peakAbandonedRetainedResources
    lastCancellationToReleaseNs := s.lastCancellationToRelease
    maxCancellationToReleaseNs := s.maxCancellationToRelease
    finishedRequests := s.finishedRequests
    cancelledRequests := s.cancelledRequests
    deadlineExpiredRequests := s.deadlineExpiredRequests
    drainCycles := s.drainCycles
    configuredSubmissionBound := s.limits.maxNewSubmissionsPerTurn
    configuredSliceBound := s.limits.executionSlice
    poisoned := s.poisoned.isSome }

def Exposed (request : RequestId) : Prop :=
  ∃ work ∈ m.scheduler.submitted, work.id.request = request ∧ work.disposition = .publish ∧
    0 < env.retainedResources work.output m.world

def Pass.Exposes : Pass Ω W S B O → Prop
  | .preparing _ m => ∃ request ready state next queued pending,
      selectReady env m.scheduler m.scheduler.ready.length m.scheduler.ready =
        (some request, ready) ∧
      m.scheduler.requests[request]? = some ⟨state, next, queued :: pending⟩ ∧
      (describeAndBranch env m.scheduler.limits queued state m.world).1.isOk = false ∧
      Exposed env m queued.id.request
  | .submitting _ m => ∃ prepared rest, m.scheduler.prepared = prepared :: rest ∧
      (env.execute prepared.id prepared.work prepared.branch m.world).1.1.isOk = false ∧
      Exposed env m prepared.id.request
  | .enqueuing .. | .settling .. => False

def ConstantResources : Prop :=
  ∀ output first second, env.retainedResources output first = env.retainedResources output second

def Covered : Prop :=
  abandonedRetainedResources env m ≤ m.scheduler.peakAbandonedRetainedResources

/-- No occupancy grows and no peak changes. -/
structure Lowers (before after : Machine Ω W S B O) : Prop where
  accepted : after.scheduler.acceptedWork ≤ before.scheduler.acceptedWork
  submitted : after.scheduler.submitted.length = before.scheduler.submitted.length
  peakAccepted : after.scheduler.peakAcceptedWork = before.scheduler.peakAcceptedWork
  peakInFlight : after.scheduler.peakInFlightWork = before.scheduler.peakInFlightWork
  peakAbandoned : after.scheduler.peakAbandonedRetainedResources =
    before.scheduler.peakAbandonedRetainedResources

variable {m before middle after : Machine Ω W S B O}

theorem Lowers.trans (hf : Lowers before middle) (hs : Lowers middle after) :
    Lowers before after where
  accepted := hs.accepted.trans hf.accepted
  submitted := hs.submitted.trans hf.submitted
  peakAccepted := hs.peakAccepted.trans hf.peakAccepted
  peakInFlight := hs.peakInFlight.trans hf.peakInFlight
  peakAbandoned := hs.peakAbandoned.trans hf.peakAbandoned

theorem failRequest_lowers (request : RequestId) (now : Nat)
    (m : Machine Ω W S B O) : Lowers m (failRequest env request now m) := by
  cases ha : m.scheduler.requests[request]? with
  | none =>
    rw [failRequest_unknown env ha now]
    exact ⟨le_rfl, rfl, rfl, rfl, rfl⟩
  | some entry =>
    obtain ⟨lifecycle, failedWork, world, hf, -⟩ := failRequest_frame env ha now
    rw [hf]
    exact ⟨sub_le _ _, length_map _, rfl, rfl, rfl⟩

/-- What a submission adds to the abandoned resources when its output weighs `weight`. -/
def Submitted.retained (weight : O → Nat) (work : Submitted W B O) : Nat :=
  match work.disposition with
  | .abandon _ => weight work.output
  | .publish => 0
  | .fail => 0

theorem abandonedRetainedResources_eq (m : Machine Ω W S B O) :
    abandonedRetainedResources env m = (m.scheduler.submitted.map
      (·.retained fun output => env.retainedResources output m.world)).sum := by
  unfold abandonedRetainedResources
  induction m.scheduler.submitted with
  | nil => rfl
  | cons work rest ih => cases hk : work.disposition <;> simp [hk, Submitted.retained, ih]

theorem sum_abandonPublished {weight : O → Nat} {submitted : List (Submitted W B O)}
    (selected : RequestId → Bool) (now : Nat)
    (hf : ∀ work ∈ submitted, selected work.id.request = true → work.disposition = .publish →
      weight work.output = 0) :
    ((submitted.map fun work =>
        if selected work.id.request && work.disposition.isPublish then
          { work with disposition := .abandon now } else work).map (·.retained weight)).sum =
      (submitted.map (·.retained weight)).sum := by
  rw [map_map]
  refine congrArg sum (map_congr_left fun work hl => ?_)
  dsimp only [Function.comp]
  split
  · next ha =>
    simp only [Bool.and_eq_true, Disposition.isPublish_iff] at ha
    simp [Submitted.retained, ha.2, hf work hl ha.1 ha.2]
  · rfl

variable {env} {request : RequestId}

theorem failRequest_covered (hco : ConstantResources env)
    (hh : ¬Exposed env m request) (now : Nat) (hc : Covered env m) :
    Covered env (failRequest env request now m) := by
  cases ha : m.scheduler.requests[request]? with
  | none =>
    rw [failRequest_unknown env ha now]
    exact hc
  | some entry =>
    obtain ⟨lifecycle, failedWork, world, hf, -⟩ := failRequest_frame env ha now
    have hfr : ∀ work ∈ m.scheduler.submitted, decide (work.id.request = request) = true →
        work.disposition = .publish → env.retainedResources work.output world = 0 := by
      intro work hl ho hp
      rw [hco work.output world m.world]
      refine Nat.eq_zero_of_not_pos fun hr => hh ?_
      exact ⟨work, hl, of_decide_eq_true ho, hp, hr⟩
    unfold Covered at hc ⊢
    rw [abandonedRetainedResources_eq] at hc ⊢
    simp only [hco _ m.world world] at hc
    rw [hf]
    exact (sum_abandonPublished (· = request) now hfr).trans_le hc

theorem Settled.lowers {now : Nat} {work : Submitted W B O} {completed : Bool}
    {kept : Option (Submitted W B O)}
    (settled : Settled env now work before completed kept after) : Lowers before after := by
  have hr {settled : Machine Ω W S B O}
      (hl : Lowers before settled) : Lowers before (failRequest env work.id.request now settled) :=
    hl.trans (failRequest_lowers env work.id.request now settled)
  cases settled with
  | kept | condemned => exact ⟨le_rfl, rfl, rfl, rfl, rfl⟩
  | released | orphaned | published => exact ⟨sub_le _ _, rfl, rfl, rfl, rfl⟩
  | unpublished | failed | refused =>
    apply hr
    exact ⟨sub_le _ _, rfl, rfl, rfl, rfl⟩

/-- A completion loop lowers occupancy and retains at most the entries it was given. -/
theorem settleEach_lowers {α : Type} {settle : Settle Ω W S B O α}
    (he : ∀ item progress m, Lowers m (settle item progress m).2) (items : List α)
    (progress : SchedulerProgress W O) (m : Machine Ω W S B O) :
    Lowers m (settleEach settle items progress m).2 ∧
      (settleEach settle items progress m).1.1.length ≤ items.length := by
  induction items generalizing progress m with
  | nil => exact ⟨⟨le_rfl, rfl, rfl, rfl, rfl⟩, le_rfl⟩
  | cons item rest ih =>
    obtain ⟨hl, hk⟩ := ih (settle item progress m).1.2 (settle item progress m).2
    refine ⟨(he item progress m).trans hl, ?_⟩
    have one : (settle item progress m).1.1.toList.length ≤ 1 := by
      cases (settle item progress m).1.1 <;> simp
    calc (settleEach settle (item :: rest) progress m).1.1.length
        = (settle item progress m).1.1.toList.length + _ := length_append
      _ ≤ 1 + rest.length := Nat.add_le_add one hk
      _ = (item :: rest).length := add_comm _ _

variable (env)

/-- Along these passes the peaks keep dominating; the peak of abandoned resources as far as no pass
exposes any. -/
structure Raises (points : List (Pass Ω W S B O))
    (before after : Machine Ω W S B O) : Prop where
  queued : before.scheduler.acceptedWork ≤ before.scheduler.peakAcceptedWork →
    after.scheduler.acceptedWork ≤ after.scheduler.peakAcceptedWork
  inFlight : before.scheduler.submitted.length ≤ before.scheduler.peakInFlightWork →
    after.scheduler.submitted.length ≤ after.scheduler.peakInFlightWork
  abandoned : (∀ pass ∈ points, ¬pass.Exposes env) → Covered env before → Covered env after

variable {env} {points : List (Pass Ω W S B O)}

theorem Lowers.raises (hl : Lowers before after)
    (hc : (∀ pass ∈ points, ¬pass.Exposes env) → Covered env before → Covered env after) :
    Raises env points before after where
  queued hd := (hl.accepted.trans hd).trans hl.peakAccepted.ge
  inFlight hd := (hl.submitted.trans_le hd).trans hl.peakInFlight.ge
  abandoned := hc

theorem Lowers.raisesSame (hco : ConstantResources env) (hl : Lowers before after)
    (hs : after.scheduler.submitted = before.scheduler.submitted) :
    Raises env points before after := by
  refine hl.raises fun _ hc => ?_
  unfold Covered at hc ⊢
  rw [abandonedRetainedResources_eq] at hc ⊢
  rw [hs, hl.peakAbandoned]
  simpa only [hco _ after.world before.world] using hc

theorem Lowers.raisesRefreshed (hl : Lowers before after) :
    Raises env points before (updateAbandonedResourcePeak env after) where
  queued hd := (hl.accepted.trans hd).trans hl.peakAccepted.ge
  inFlight hd := (hl.submitted.trans_le hd).trans hl.peakInFlight.ge
  abandoned _ _ := le_max_right _ _

theorem raises_graded : Graded (Raises env) where
  nil _ := ⟨id, id, fun _ => id⟩
  append hf hs :=
    { queued hd := hs.queued (hf.queued hd)
      inFlight hd := hs.inFlight (hf.inFlight hd)
      abandoned hh hc := hs.abandoned
        (fun pass hl => hh pass (mem_append_right _ hl))
        (hf.abandoned (fun pass hl => hh pass (mem_append_left _ hl)) hc) }

theorem settleAll_raises {α : Type} {settle : Settle Ω W S B O α}
    (he : ∀ item progress m, Lowers m (settle item progress m).2) {items : List α}
    (hc : items.length ≤ m.scheduler.submitted.length) (now : Nat) :
    Raises env points m (settleAll env settle items now m).2 := by
  obtain ⟨hl, hk⟩ := settleEach_lowers he items {} (m.update fun s => { s with submitted := [] })
  unfold settleAll
  generalize settleEach settle items {} _ = result at hl hk ⊢
  exact
    { queued hd := (hl.accepted.trans hd).trans hl.peakAccepted.ge
      inFlight hd := (length_map _).trans_le (((hk.trans hc).trans hd).trans hl.peakInFlight.ge)
      abandoned _ _ := le_max_right _ _ }

theorem raises_failing (hc : ConstantResources env) (now : Nat) (hl : Lowers before middle)
    (hs : middle.scheduler.submitted = before.scheduler.submitted)
    (hh : (∀ pass ∈ points, ¬pass.Exposes env) → ¬Exposed env before request) :
    Raises env points before (failRequest env request now middle) := by
  refine (hl.trans (failRequest_lowers env request now middle)).raises fun hu hco => ?_
  refine failRequest_covered hc (fun he => hh hu ?_) now
    ((Lowers.raisesSame hc hl hs).abandoned hu hco)
  obtain ⟨work, hli, ho, hp, hr⟩ := he
  exact ⟨work, hs ▸ hli, ho, hp, hc _ middle.world before.world ▸ hr⟩

variable (env) in
/-- Every method keeps the peaks above the current values. -/
theorem raises_tracks (constant : ConstantResources env) : Tracks env (Raises env) where
  toGraded := raises_graded
  world m world := Lowers.raisesSame constant ⟨le_rfl, rfl, rfl, rfl, rfl⟩ rfl
  fence reason m := Lowers.raisesSame constant ⟨le_rfl, rfl, rfl, rfl, rfl⟩ rfl
  poison reason now m := by
    rcases poison_frame env reason now m with same | ⟨_, _, _, _, _, frame, -⟩
    · rw [same]
      exact raises_graded.nil m
    · rw [frame]
      exact Lowers.raisesRefreshed ⟨sub_le _ _, length_map _, rfl, rfl, rfl⟩
  cancel {m request entry} _ cause now := by
    obtain ⟨_, _, _, _, _, _, _, _, _, frame, rfl, -⟩ :=
      cancelEntry_frame env request entry cause now m
    rw [frame]
    exact Lowers.raisesRefreshed ⟨sub_le _ _, length_map _, rfl, rfl, rfl⟩
  edit _ _ _ := Lowers.raisesSame constant ⟨le_rfl, rfl, rfl, rfl, rfl⟩ rfl
  forget _ _ := Lowers.raisesSame constant ⟨le_rfl, rfl, rfl, rfl, rfl⟩ rfl
  enqueue _ _ _ _ := ⟨fun _ => le_max_right _ _, id, fun _ => id⟩
  idle _ m := ⟨id, id, fun _ => id⟩
  finish {m request entry} _ _ := by
    obtain ⟨_, _, _, frame, -⟩ := withdrawRequest_frame env request entry .abandoned m
    rw [frame]
    exact Lowers.raisesSame constant ⟨sub_le _ _, rfl, rfl, rfl, rfl⟩ rfl
  stall _ _ := Lowers.raisesSame constant ⟨le_rfl, rfl, rfl, rfl, rfl⟩ rfl
  prepare _ _ _ _ _ _ _ := Lowers.raisesSame constant ⟨le_rfl, rfl, rfl, rfl, rfl⟩ rfl
  reject {m request ready state next queued pending} selection active error world described now := by
    refine raises_failing constant now ⟨sub_le _ _, rfl, rfl, rfl, rfl⟩ rfl ?_
    intro hidden exposed
    refine hidden _ (mem_singleton_self _) ⟨request, ready, state, next, queued, pending,
      selection, active, ?_, exposed⟩
    rw [described]
    rfl
  lost _ _ _ := ⟨id, id, fun _ => id⟩
  submit {m prepared rest now} _ _ _ output branch world _ :=
    { queued := id
      inFlight _ := le_max_right _ _
      abandoned _ covered := by
        unfold Covered at covered ⊢
        rw [abandonedRetainedResources_eq] at covered ⊢
        simp only [constant _ m.world world] at covered
        simpa [Machine.update, recordSubmission, setLifecycle, Submitted.retained]
          using covered }
  refuse {m prepared rest now} front _ error branch world executed := by
    refine raises_failing constant now ⟨sub_le _ _, rfl, rfl, rfl, rfl⟩ rfl ?_
    intro hidden exposed
    refine hidden _ (mem_singleton_self _) ⟨prepared, rest, front, ?_, exposed⟩
    rw [executed]
    rfl
  drained count m := by
    apply Lowers.raisesRefreshed
    split <;> exact ⟨le_rfl, rfl, rfl, rfl, rfl⟩
  poll now m := settleAll_raises
    (fun item progress m => (settleLocal_settled now item progress m).lowers) le_rfl now
  resolve now m resolutions _ := settleAll_raises
    (fun item progress m => (settleDistributed_settled now item progress m).lowers)
    (by simp) now

/-- Whatever the calls, the queue and in-flight peaks dominate the current values. The peak of
abandoned resources dominates in every run in which no failing preparation or submission belongs to
an exposed request. -/
theorem peaks_dominate (env : Environment Ω W S B O)
    (constant : ConstantResources env) {limits : SchedulerLimits}
    {scheduler : Scheduler W S B O} (world : Ω)
    (created : new limits = .ok scheduler) (commands : List (Command Ω W S)) :
    let reached := run env { scheduler, world } commands
    reached.scheduler.acceptedWork ≤ (report env reached).peakQueuedWork ∧
      (report env reached).currentInFlightWork ≤ (report env reached).peakInFlightWork ∧
      ((∀ pass ∈ runPasses env { scheduler, world } commands, ¬pass.Exposes env) →
        (report env reached).abandonedRetainedResources ≤
          (report env reached).peakAbandonedRetainedResources) := by
  have hr := (raises_tracks env constant).run { scheduler, world } commands
  obtain rfl := new_eq created
  exact ⟨hr.queued le_rfl, hr.inFlight le_rfl, fun hh => hr.abandoned hh le_rfl⟩

/-- `countingEnvironment` with states that permit several branches at once. -/
def parallelEnvironment : Environment Unit Bool Nat Nat Nat :=
  { countingEnvironment with permitsParallelBranches _ := true }

def parallelStart : Machine Unit Bool Nat Nat Nat where
  scheduler := { limits := ⟨2, 4, 2, 2, 2, 8⟩ }
  world := ()

def cancelledRun : List (Command Unit Bool Nat) :=
  [.register ⟨0⟩ 0, .enqueueBatch ⟨0⟩ [(true, none)], .prepareBounded 1 0, .submitPrepared 0,
    .cancel ⟨0⟩ 0]

/-- The abandoned submission is retained and covered by the peak. -/
theorem peaks_dominate_cancelled :
    (report parallelEnvironment (run parallelEnvironment parallelStart cancelledRun)
      ).abandonedRetainedResources = 1 ∧
    (report parallelEnvironment (run parallelEnvironment parallelStart cancelledRun)
      ).abandonedRetainedResources ≤
      (report parallelEnvironment (run parallelEnvironment parallelStart cancelledRun)
        ).peakAbandonedRetainedResources := by
  refine ⟨by decide, (peaks_dominate parallelEnvironment (fun _ _ _ => rfl) ()
    (show new ⟨2, 4, 2, 2, 2, 8⟩ = .ok _ from rfl) cancelledRun).2.2 ?_⟩
  have ha : (runPasses parallelEnvironment parallelStart cancelledRun).all (fun
      | .preparing _ m => m.scheduler.submitted.isEmpty
      | .submitting _ m => m.scheduler.submitted.isEmpty
      | .enqueuing .. | .settling .. => true) = true := by decide
  intro pass hl he
  have hem := all_eq_true.mp ha pass hl
  cases pass with
  | preparing now m =>
    obtain ⟨_, _, _, _, _, _, -, -, -, work, hs, -⟩ := he
    simp [isEmpty_iff.mp hem] at hs
  | submitting now m =>
    obtain ⟨_, _, -, -, work, hs, -⟩ := he
    simp [isEmpty_iff.mp hem] at hs
  | enqueuing | settling => exact he

/-- One submission in flight, and a second item of its request that cannot be encoded. -/
def exposedRun : List (Command Unit Bool Nat) :=
  [.register ⟨0⟩ 0, .enqueueBatch ⟨0⟩ [(true, none), (false, none)], .prepareBounded 1 0,
    .submitPrepared 0, .prepareBounded 1 0]

/-- A failing preparation abandons the sibling in flight and leaves the peak behind. -/
theorem failed_preparation_exceeds_peak :
    ConstantResources parallelEnvironment ∧ Reachable parallelEnvironment
      (run parallelEnvironment parallelStart exposedRun) ∧
    (report parallelEnvironment (run parallelEnvironment parallelStart exposedRun)
      ).abandonedRetainedResources = 1 ∧
    (report parallelEnvironment (run parallelEnvironment parallelStart exposedRun)
      ).peakAbandonedRetainedResources = 0 := by
  have hr : Reachable parallelEnvironment parallelStart :=
    .new () (show new ⟨2, 4, 2, 2, 2, 8⟩ = .ok _ from rfl)
  exact ⟨fun _ _ _ => rfl, hr.run parallelEnvironment exposedRun, by decide, by decide⟩

end Eredu.Scheduling
