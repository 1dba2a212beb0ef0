import Eredu.Scheduling.Trace

/-!
# What ending a request leaves alone

Withdrawing a request, failing it and poisoning the scheduler discard branches, so
they change the world and may count failed cleanups. Everything else they do to the
scheduler is stated here once, as the record they leave.
-/

namespace Eredu.Scheduling

open Std

variable {Ω W S B O : Type}

def Reliable (env : Environment Ω W S B O) : Prop :=
  ∀ branch world, (env.discardBranch branch world).1 = .ok ()

variable (s : Scheduler W S B O)

def Scheduler.unsubmitted (request : RequestId) (entry : Request W S) : Nat :=
  entry.pending.length + (s.prepared.filter fun work => work.id.request = request).length

def Scheduler.without (request : RequestId)
    (entry : Request W S) (lifecycle : TreeMap WorkId WorkLifecycle) (failedWork : Nat) :
    Scheduler W S B O :=
  { s with
    requests := s.requests.erase request
    ready := s.ready.filter (· ≠ request)
    prepared := s.prepared.filter fun work => work.id.request ≠ request
    lifecycle
    acceptedWork := s.acceptedWork - s.unsubmitted request entry
    failedWork
    discardedWork := saturatingAdd s.discardedWork (s.unsubmitted request entry) }

variable (env : Environment Ω W S B O)

theorem discardBranches_frame (stage : WorkLifecycle) (works : List (Prepared W B))
    (m : Machine Ω W S B O) : ∃ lifecycle failedWork world, (discardBranches env stage works m).2 =
        ⟨{ m.scheduler with lifecycle, failedWork }, world, m.history⟩ ∧
      (Reliable env → failedWork = m.scheduler.failedWork) := by
  induction works generalizing m with
  | nil => exact ⟨_, _, _, rfl, fun _ => rfl⟩
  | cons work rest ih =>
    simp only [discardBranches, discard]
    rcases hd : env.discardBranch work.branch m.world with ⟨error | _, world⟩
    · obtain ⟨lifecycle, failedWork, final, hf, -⟩ := ih
        (Machine.update ⟨m.scheduler, world, m.history⟩
          fun s => (s.setLifecycle work.id .failed).addFailedWork)
      refine ⟨lifecycle, failedWork, final, hf, fun hr => ?_⟩
      have ok := hr work.branch m.world
      rw [hd] at ok
      cases ok
    · exact ih (Machine.update ⟨m.scheduler, world, m.history⟩ (·.setLifecycle work.id stage))

theorem withdrawRequest_frame (request : RequestId) (entry : Request W S)
    (stage : WorkLifecycle) (m : Machine Ω W S B O) :
    ∃ lifecycle failedWork world, (withdrawRequest env request entry stage m).2 =
        ⟨m.scheduler.without request entry lifecycle failedWork, world, m.history⟩ ∧
      (Reliable env → failedWork = m.scheduler.failedWork) := by
  let removed := m.update (·.removeRequest request entry stage)
  obtain ⟨lifecycle, failedWork, world, hf, hc⟩ := discardBranches_frame env .abandoned
    (removed.scheduler.prepared.filter fun work => work.id.request = request) removed
  refine ⟨lifecycle, failedWork, world, ?_, hc⟩
  unfold withdrawRequest discardPreparedForRequest
  dsimp only
  rw [hf]
  rfl

theorem failRequest_unknown {request : RequestId} {m : Machine Ω W S B O}
    (hu : m.scheduler.requests[request]? = none) (now : Nat) :
    failRequest env request now m = m := by
  unfold failRequest
  rw [hu]

theorem failRequest_frame {request : RequestId} {entry : Request W S} {m : Machine Ω W S B O}
    (ha : m.scheduler.requests[request]? = some entry) (now : Nat) :
    ∃ lifecycle failedWork world, failRequest env request now m =
        ⟨{ (m.scheduler.without request entry lifecycle failedWork).abandonPublished
            (· = request) now with
          terminal := m.scheduler.terminal.insert request .failed }, world, m.history⟩ ∧
      (Reliable env → failedWork = m.scheduler.failedWork) := by
  obtain ⟨lifecycle, failedWork, world, hf, hc⟩ := withdrawRequest_frame env request entry .failed m
  refine ⟨lifecycle, failedWork, world, ?_, hc⟩
  simp only [failRequest, ha, hf]
  rfl

/-- Cancelling an active request withdraws it, abandons its submissions, counts and records its end
and refreshes the peak of abandoned resources. -/
theorem cancelEntry_frame (request : RequestId) (entry : Request W S)
    (cause : CancellationCause) (now : Nat) (m : Machine Ω W S B O) :
    ∃ (counted : Scheduler W S B O) (lifecycle : TreeMap WorkId WorkLifecycle)
        (failedWork : Nat) (world : Ω) (terminal : TreeMap RequestId RequestStatus)
        (before after cancelled expired : Nat),
      (cancelEntry env request entry cause now m).2 =
        updateAbandonedResourcePeak env ⟨counted, world, m.history⟩ ∧
      counted = { (m.scheduler.without request entry lifecycle failedWork).abandonPublished
          (· = request) now with
        terminal
        cancellationBeforeSubmission := before
        cancellationAfterSubmission := after
        cancelledRequests := cancelled
        deadlineExpiredRequests := expired } ∧
      (Reliable env → failedWork = m.scheduler.failedWork) := by
  obtain ⟨lifecycle, failedWork, world, hf, counted⟩ :=
    withdrawRequest_frame env request entry .abandoned m
  unfold cancelEntry
  dsimp only
  rw [hf]
  cases cause <;> exact ⟨_, lifecycle, failedWork, world, _, _, _, _, _, rfl, rfl, counted⟩

/-- The scheduler that poisoning leaves, before the peak is refreshed. -/
def Scheduler.ended (s : Scheduler W S B O) (now : Nat)
    (terminal : TreeMap RequestId RequestStatus) (lifecycle : TreeMap WorkId WorkLifecycle)
    (failedWork : Nat) (reason : String) : Scheduler W S B O :=
  { Scheduler.abandonPublished { s with
      requests := ∅
      ready := []
      prepared := []
      lifecycle
      acceptedWork := s.acceptedWork - (s.queuedIds.length + s.prepared.length)
      failedWork
      discardedWork := saturatingAdd s.discardedWork (s.queuedIds.length + s.prepared.length) }
      (fun _ => true) now with
    terminal
    poisoned := some reason }

theorem poison_frame (reason : String) (now : Nat) (m : Machine Ω W S B O) :
    poison env reason now m = m ∨
      ∃ terminal lifecycle failedWork text world, poison env reason now m =
          updateAbandonedResourcePeak env
            ⟨m.scheduler.ended now terminal lifecycle failedWork text, world, m.history⟩ ∧
        (Reliable env → failedWork = m.scheduler.failedWork) := by
  unfold poison
  split
  · exact .inl rfl
  obtain ⟨lifecycle, failedWork, world, hf, hc⟩ := discardBranches_frame env .failed
    m.scheduler.prepared (m.update (·.failAllRequests))
  right
  dsimp only
  rw [hf]
  exact ⟨_, lifecycle, failedWork, _, world, rfl, hc⟩

/-- What a pass of a completion loop does with an entry, by the machine it leaves and the entry it
retains. `completed` says that the pass found the entry complete. -/
inductive Settled (now : Nat) (work : Submitted W B O)
    (m : Machine Ω W S B O) :
    Bool → Option (Submitted W B O) → Machine Ω W S B O → Prop
  | kept (world : Ω) : Settled now work m false (some work) { m with world }
  | condemned (lifecycle : TreeMap WorkId WorkLifecycle) (world : Ω)
      (healthy : work.disposition ≠ .fail) :
      Settled now work m false (some { work with disposition := .fail })
        ⟨{ m.scheduler with
            lifecycle, failedWork := saturatingAdd m.scheduler.failedWork 1 }, world, m.history⟩
  | released {completed : Bool} {cancelledAt : Nat} (lifecycle : TreeMap WorkId WorkLifecycle)
      (failedWork : Nat) (last longest : Option Nat) (world : Ω)
      (cancelled : work.disposition = .abandon cancelledAt)
      (counted : Reliable env → failedWork = m.scheduler.failedWork) :
      Settled now work m completed none
        ⟨{ m.scheduler with
            lifecycle
            acceptedWork := m.scheduler.acceptedWork - 1
            failedWork
            abandonedReleasedWork := saturatingAdd m.scheduler.abandonedReleasedWork 1
            lastCancellationToRelease := last
            maxCancellationToRelease := longest }, world, m.history⟩
  | orphaned (lifecycle : TreeMap WorkId WorkLifecycle) (failedWork : Nat) (world : Ω)
      (publishes : work.disposition = .publish)
      (gone : m.scheduler.requests[work.id.request]? = none)
      (counted : Reliable env → failedWork = m.scheduler.failedWork) :
      Settled now work m true none
        ⟨{ m.scheduler with lifecycle, acceptedWork := m.scheduler.acceptedWork - 1, failedWork },
          world, m.history⟩
  | published {entry : Request W S} (state : S)
      (lifecycle : TreeMap WorkId WorkLifecycle) (world : Ω) (history : List (Event S))
      (active : m.scheduler.requests[work.id.request]? = some entry)
      (publishes : work.disposition = .publish) :
      Settled now work m true none
        ⟨{ m.scheduler with
            requests := m.scheduler.requests.insert work.id.request { entry with state }
            lifecycle
            acceptedWork := m.scheduler.acceptedWork - 1
            completedWork := saturatingAdd m.scheduler.completedWork 1 }, world, history⟩
  | unpublished {entry : Request W S} (state : S)
      (lifecycle : TreeMap WorkId WorkLifecycle) (world : Ω) (history : List (Event S))
      (active : m.scheduler.requests[work.id.request]? = some entry)
      (publishes : work.disposition = .publish) :
      Settled now work m true none (failRequest env work.id.request now
        ⟨{ m.scheduler with
            requests := m.scheduler.requests.insert work.id.request { entry with state }
            lifecycle
            acceptedWork := m.scheduler.acceptedWork - 1
            failedWork := saturatingAdd m.scheduler.failedWork 1 }, world, history⟩)
  | failed {completed : Bool} (lifecycle : TreeMap WorkId WorkLifecycle) (world : Ω)
      (condemned : work.disposition = .fail) :
      Settled now work m completed none (failRequest env work.id.request now
        ⟨{ m.scheduler with lifecycle, acceptedWork := m.scheduler.acceptedWork - 1 },
          world, m.history⟩)
  | refused (lifecycle : TreeMap WorkId WorkLifecycle) (world : Ω)
      (healthy : work.disposition ≠ .fail) :
      Settled now work m false none (failRequest env work.id.request now
        ⟨{ m.scheduler with
            lifecycle
            acceptedWork := m.scheduler.acceptedWork - 1
            failedWork := saturatingAdd m.scheduler.failedWork 1 }, world, m.history⟩)

variable {env} {work : Submitted W B O} {m : Machine Ω W S B O}

theorem Settled.from {now : Nat} {completed : Bool} {kept : Option (Submitted W B O)}
    {after : Machine Ω W S B O} (world : Ω)
    (hs : Settled env now work { m with world } completed kept after) :
    Settled env now work m completed kept after := by
  cases hs with
  | kept world => exact .kept world
  | condemned lifecycle world hh => exact .condemned lifecycle world hh
  | released lifecycle failedWork last longest world hca hc =>
    exact .released lifecycle failedWork last longest world hca hc
  | orphaned lifecycle failedWork world hp hg hc =>
    exact .orphaned lifecycle failedWork world hp hg hc
  | published state lifecycle world history ha hp =>
    exact .published state lifecycle world history ha hp
  | unpublished state lifecycle world history ha hp =>
    exact .unpublished state lifecycle world history ha hp
  | failed lifecycle world hco => exact .failed lifecycle world hco
  | refused lifecycle world hh => exact .refused lifecycle world hh

theorem resolveCompleted_settled (now : Nat) (progress : SchedulerProgress W O)
    (work : Submitted W B O) (m : Machine Ω W S B O) :
    Settled env now work m true none (resolveCompleted env work now progress m).2 := by
  have hc {outcome : Except String Unit} {world : Ω}
      (hdi : env.discardBranch work.branch m.world = (outcome, world))
      (hf : ∃ error, outcome = .error error) (count : Nat) :
      Reliable env → count = m.scheduler.failedWork := by
    intro hr
    have ok := hr work.branch m.world
    obtain ⟨error, rfl⟩ := hf
    rw [hdi] at ok
    cases ok
  unfold resolveCompleted
  cases hd : work.disposition with
  | abandon cancelledAt =>
    dsimp only [resolveAbandoned, discard]
    rcases hdi : env.discardBranch work.branch m.world with ⟨error | _, world⟩
    · exact .released _ _ _ _ world hd (hc hdi ⟨error, rfl⟩ _)
    · exact .released _ _ _ _ world hd fun _ => rfl
  | fail => exact .failed _ _ hd
  | publish =>
    dsimp only
    split
    · next hg =>
      dsimp only [resolveOrphaned, discard, Machine.update]
      rcases hdi : env.discardBranch work.branch m.world with ⟨error | _, world⟩
      · exact .orphaned _ _ world hd hg (hc hdi ⟨error, rfl⟩ _)
      · exact .orphaned _ _ world hd hg fun _ => rfl
    · next entry ha =>
      rcases hco : env.commitBranch entry.state work.branch m.world with
        ⟨⟨error | _, state⟩, world⟩ <;>
      simp only [resolvePublished, Machine.update, hco]
      · exact .unpublished state _ world _ ha hd
      · exact .published state _ world _ ha hd

theorem settleLocal_settled (now : Nat) (work : Submitted W B O)
    (progress : SchedulerProgress W O) (m : Machine Ω W S B O) :
    Settled env now work m (viewLocal env work m).2 (settleLocal env now work progress m).1.1
      (settleLocal env now work progress m).2 := by
  unfold viewLocal
  rcases ho : env.isComplete work.output m.world with ⟨error | complete, world⟩
  · simp only [settleLocal, ho]
    refine Settled.from world ?_
    unfold resolveUnobservable
    by_cases hc : work.disposition = .fail
    · simp only [hc]
      exact .failed _ _ hc
    · simp only [hc]
      exact .refused _ _ hc
  · cases complete with
    | false =>
      simp only [settleLocal, ho]
      exact .kept world
    | true =>
      simp only [settleLocal, ho, resolved]
      exact Settled.from world (resolveCompleted_settled now progress work { m with world })

theorem settleDistributed_settled (now : Nat) (item : Submitted W B O × CompletionResolution)
    (progress : SchedulerProgress W O) (m : Machine Ω W S B O) :
    Settled env now item.1 m (viewDistributed item m).2 (settleDistributed env now item progress m).1.1
      (settleDistributed env now item progress m).2 := by
  obtain ⟨work, resolution⟩ := item
  cases resolution with
  | incomplete => exact .kept m.world
  | complete => exact resolveCompleted_settled now progress work m
  | failedPending =>
    dsimp only [settleDistributed]
    split
    · exact .kept m.world
    · next hh => exact .condemned _ m.world hh
  | failedComplete =>
    dsimp only [settleDistributed]
    split
    · next hc =>
      simp only [resolveCompleted, hc]
      exact .failed _ _ hc
    · next hh => exact .refused _ _ hh

end Eredu.Scheduling
