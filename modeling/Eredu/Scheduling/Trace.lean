import Eredu.Foundation.Traced
import Eredu.Scheduling.Runs

/-!
# The passes of a call

The scheduler's loops prepare, submit and settle one item per pass. The trace of a
call lists the passes it makes, each with the machine it starts from. What a graded
relation keeps between passes and along each kind of pass, it keeps along every
call and along every run.
-/

namespace Eredu.Scheduling

open Std Effect Ledger

variable {Ω W S B O : Type}

variable (env : Environment Ω W S B O)

/-- The passes of a completion loop; `view` reads the entry of an item and whether the pass finds it
complete. -/
def settlePasses {α : Type} (settle : Settle Ω W S B O α)
    (view : α → Machine Ω W S B O → Submitted W B O × Bool) :
    List α → SchedulerProgress W O → Machine Ω W S B O → List (Pass Ω W S B O)
  | [], _, _ => []
  | item :: rest, progress, m =>
      .settling (view item m).1 (view item m).2 m ::
        settlePasses settle view rest (settle item progress m).1.2 (settle item progress m).2

/-- A local pass observes the output of its entry. -/
def viewLocal (work : Submitted W B O) (m : Machine Ω W S B O) : Submitted W B O × Bool :=
  (work, (env.isComplete work.output m.world).1 matches .ok true)

/-- A distributed pass is told the resolution of its entry. -/
def viewDistributed (item : Submitted W B O × CompletionResolution)
    (_ : Machine Ω W S B O) : Submitted W B O × Bool :=
  (item.1, item.2 matches .complete)

def pollPasses (now : Nat) (m : Machine Ω W S B O) : List (Pass Ω W S B O) :=
  settlePasses (settleLocal env now) (viewLocal env) m.scheduler.submitted {}
    (m.update fun s => { s with submitted := [] })

variable (m : Machine Ω W S B O)

def observed : List LocalCompletion × Machine Ω W S B O :=
  ((observeAll env m.scheduler.submitted m.world).1,
    { m with world := (observeAll env m.scheduler.submitted m.world).2 })

/-- The passes of `pollDistributed` with the resolutions the ranks agreed on. -/
def resolvedPasses (now : Nat) (agreed : Except ConsensusError (List CompletionResolution))
    (m : Machine Ω W S B O) : List (Pass Ω W S B O) :=
  match agreed with
  | .error _ => []
  | .ok resolutions =>
      settlePasses (settleDistributed env now) viewDistributed
        (m.scheduler.submitted.zip resolutions) {} (m.update fun s => { s with submitted := [] })

variable (protocol : UInt64) (now : Nat)

def distributedPasses (m : Machine Ω W S B O) : List (Pass Ω W S B O) :=
  (consult (resolveOutputCompletionsBounded env.transport protocol (observed env m).1)).seen
    (observed env m).2 (resolvedPasses env now)

def closingPasses (m : Machine Ω W S B O) : List (Pass Ω W S B O) :=
  boundedPasses env m.scheduler.limits.maxNewSubmissionsPerTurn now m ++
    (prepareBounded env m.scheduler.limits.maxNewSubmissionsPerTurn now).seen m fun _ m =>
      submittedPasses env now m ++ (submitPrepared env now).seen m fun _ m => pollPasses env now m

def agreedPasses (m : Machine Ω W S B O) : List (Pass Ω W S B O) :=
  boundedPasses env m.scheduler.limits.maxNewSubmissionsPerTurn now m ++
    (prepareBounded env m.scheduler.limits.maxNewSubmissionsPerTurn now).seen m fun _ m =>
      (consult (validateScheduleBounded env.transport (submissionPlan m.scheduler)
        (UInt64.ofNat m.scheduler.drainCycles) protocol)).seen m fun validated m =>
          match validated with
          | .error _ => []
          | .ok () => submittedPasses env now m

def passes :
    Command Ω W S → List (Pass Ω W S B O)
  | .enqueueBatch request _ => [.enqueuing request m]
  | .prepareBounded limit now => boundedPasses env limit now m
  | .submitPrepared now => submittedPasses env now m
  | .pollCompletions now => pollPasses env now m
  | .runLocalTurn now => ensureReady.seen m fun _ m =>
      pollPasses env now m ++ closingPasses env now (pollCompletions env now m).2
  | .runDistributedTurn protocol now => ensureReady.seen m fun _ m =>
      (expireDeadlinesDistributed env protocol now).seen m fun _ m =>
        distributedPasses env protocol now m ++
          (pollDistributed env protocol now).seen m fun _ m => agreedPasses env protocol now m
  | _ => []

def runPasses : Machine Ω W S B O → List (Command Ω W S) →
    List (Pass Ω W S B O)
  | _, [] => []
  | m, command :: rest => passes env m command ++ runPasses (step env m command) rest

theorem queueOf_setState {requests : TreeMap RequestId (Request W S)} {request : RequestId}
    {entry : Request W S} (ha : requests[request]? = some entry) (state : S) (other : RequestId) :
    queueOf (requests.insert request { entry with state }) other = queueOf requests other := by
  simp only [queueOf, lookup_insert]
  split
  · next hs => simp [hs, ha]
  · rfl

/-- A relation that is kept between the passes and along each kind of pass. -/
structure Tracks (relation : List (Pass Ω W S B O) →
    Machine Ω W S B O → Machine Ω W S B O → Prop) :
    Prop extends Advances env relation where
  /-- Registration, access to a state and release keep what is queued. -/
  edit : ∀ {m requests}, total queueLength requests = total queueLength m.scheduler.requests →
    (∀ request, queueOf requests request = queueOf m.scheduler.requests request) →
      ∀ history, relation [] m { m with scheduler := { m.scheduler with requests }, history }
  forget : ∀ m terminal, relation [] m (m.update fun s => { s with terminal })
  enqueue : ∀ {m request entry}, m.scheduler.requests[request]? = some entry →
    ∀ work lifecycle next,
    relation [.enqueuing request m] m (m.update fun s => { s with
      requests := s.requests.insert request { entry with
        next, pending := entry.pending ++ batchEntries request entry.next.toNat work }
      lifecycle
      ready := if entry.pending.isEmpty && work.length ≠ 0 then s.ready ++ [request] else s.ready
      acceptedWork := s.acceptedWork + work.length
      peakAcceptedWork := max s.peakAcceptedWork (s.acceptedWork + work.length)
      submittedWork := saturatingAdd s.submittedWork work.length })
  idle : ∀ request m, relation [.enqueuing request m] m m
  finish : ∀ {m request entry}, m.scheduler.requests[request]? = some entry → ∀ status,
    relation [] m ((withdrawRequest env request entry .abandoned m).2.update fun s => { s with
      terminal := s.terminal.insert request status
      finishedRequests := saturatingAdd s.finishedRequests 1 })
  poll : ∀ now m, relation (pollPasses env now m) m (pollCompletions env now m).2
  resolve : ∀ now m resolutions, resolutions.length = m.scheduler.submitted.length →
    relation (resolvedPasses env now (.ok resolutions) m) m
      (settleAll env (settleDistributed env now) (m.scheduler.submitted.zip resolutions) now m).2

variable (command : Command Ω W S)

section Calls

variable {env}
variable {relation : List (Pass Ω W S B O) →
  Machine Ω W S B O → Machine Ω W S B O → Prop}
  (tracks : Tracks env relation)

include tracks

variable (request : RequestId)

theorem Tracks.register (state : S) : Guarantee (relation []) (register request state) := by
  have := tracks.preorder
  unfold Scheduling.register validateRegistration
  rw [bind_assoc]
  refine ensureReady_guarantee.bind fun _ m => ?_
  simp only [yields_bind, yields_get]
  split
  · exact tracks.nil m
  split
  · exact tracks.nil m
  rename_i hk _
  simp only [Bool.or_eq_true, not_or, Bool.not_eq_true, TreeMap.contains_eq_isSome_getElem?,
    Option.isSome_eq_false_iff, Option.isNone_iff_eq_none] at hk
  refine tracks.edit ((total_insert_absent queueLength _ hk.1).trans (zero_add _)) ?_ _
  intro other
  simp only [queueOf, lookup_insert]
  split
  · next hs => simp [hs, hk.1]
  · rfl

theorem Tracks.requestStateMut (access : S → S) :
    Guarantee (relation []) (requestStateMut request access) := by
  have := tracks.preorder
  refine ensureReady_guarantee.bind fun _ m => ?_
  simp only [yields_bind, yields_get]
  split
  · exact tracks.nil m
  cases ha : m.scheduler.requests[request]? with
  | none => exact tracks.nil m
  | some entry =>
    have hr := total_insert queueLength { entry with state := access entry.state } ha
    refine tracks.edit (by simpa [queueLength, add_comm] using hr) ?_ _
    exact queueOf_setState ha _

theorem Tracks.enqueueBatch (work : List (W × Option Nat)) :
    Traces relation (enqueueBatchWithDeadlines request work) fun m => [.enqueuing request m] := by
  intro m
  rw [enqueueBatchWithDeadlines, yields_bind]
  refine (ensureReady_yields m).mono ?_ ?_
  · rintro _ _ ⟨rfl, -⟩
    simp only [yields_bind, yields_get]
    split
    · exact tracks.idle request _
    split
    · exact tracks.idle request _
    split
    · exact tracks.idle request _
    rename_i entry ha
    split
    · exact tracks.idle request _
    · exact tracks.enqueue ha work _ _
  · rintro _ _ rfl
    exact tracks.idle request _

theorem Tracks.finishRequest : Guarantee (relation []) (Scheduling.finish env request) := by
  have := tracks.preorder
  refine ensureReady_guarantee.bind fun _ m => ?_
  simp only [yields_bind, yields_get]
  split
  · exact tracks.nil m
  cases ha : m.scheduler.requests[request]? with
  | none => exact tracks.nil m
  | some entry =>
    simp only [yields_bind, yields_apply, yields_modify]
    split <;> exact tracks.finish ha _

theorem Tracks.release : Guarantee (relation []) (release request) := by
  have := tracks.preorder
  refine ensureReady_guarantee.bind fun _ m => ?_
  simp only [yields_bind, yields_get]
  cases ha : m.scheduler.requests[request]? with
  | none => exact tracks.nil m
  | some entry =>
    dsimp only
    split
    · exact tracks.nil m
    rename_i hi
    simp only [Bool.or_eq_true, Bool.not_eq_true', not_or, Bool.not_eq_false,
      List.isEmpty_iff] at hi
    have he := total_erase queueLength ha
    refine tracks.edit (by simpa [queueLength, hi.1] using he.symm) ?_ _
    intro other
    simp only [queueOf, lookup_erase]
    split
    · next hs => simp [hs, ha, hi.1]
    · rfl

theorem Tracks.forgetTerminal : Guarantee (relation []) (forgetTerminal request) := by
  have := tracks.preorder
  refine ensureReady_guarantee.bind fun _ m => ?_
  simp only [yields_bind, yields_get]
  split
  · exact tracks.nil m
  split
  · exact tracks.nil m
  · exact tracks.forget m _

theorem Tracks.pollCompletions :
    Traces relation (Effect.apply (pollCompletions env now) : Op Ω W S B O _)
      (pollPasses env now) :=
  tracks.poll now

theorem Tracks.pollDistributed :
    Traces relation (pollDistributed env protocol now) (distributedPasses env protocol now) := by
  intro m
  have ho : relation [] m (observed env m).2 := tracks.world m _
  have hse : (Scheduling.consult (resolveOutputCompletionsBounded env.transport protocol
        (observed env m).1) >>= fun agreed => match agreed with
      | .error error => poisonWith env error now
      | .ok resolutions => Effect.apply fun m => settleAll env (settleDistributed env now)
          (m.scheduler.submitted.zip resolutions) now m :
        Op Ω W S B O _).Yields (observed env m).2
      (fun _ => relation (distributedPasses env protocol now m) (observed env m).2)
      fun _ => relation (distributedPasses env protocol now m) (observed env m).2 := by
    -- Every submission is answered, so the loop covers the whole submitted list.
    refine tracks.toGraded.yields_bind (List.nil_append _).symm (fun (agreed : Except _ _) after =>
      ∀ resolutions : List CompletionResolution, agreed = .ok resolutions →
        resolutions.length = after.scheduler.submitted.length) ?_ ?_
    · rw [Scheduling.consult, yields_attemptOn]
      refine (resolveOutputCompletionsBounded_length env.transport protocol _ _).mono ?_ ?_
      · intro resolutions world ha
        refine ⟨tracks.world _ world, fun _ hs => ?_⟩
        cases hs
        exact ha.trans (observeAll_length env m.scheduler.submitted m.world)
      · rintro (error | message) world _
        · exact ⟨tracks.world _ world, fun _ hs => by cases hs⟩
        · exact tracks.world _ world
    · intro agreed after ha
      cases agreed with
      | error error => exact tracks.poison _ now after
      | ok resolutions => exact tracks.resolve now after resolutions (ha resolutions rfl)
  exact hse.mono (fun _ _ hm => tracks.append ho hm) fun _ _ hm => tracks.append ho hm

theorem Tracks.runLocalTurn :
    Traces relation (runLocalTurn env now) fun m => ensureReady.seen m fun _ m =>
      pollPasses env now m ++ closingPasses env now (Scheduling.pollCompletions env now m).2 := by
  have := tracks.preorder
  refine ensureReady_guarantee.bindTraces tracks.toGraded fun _ m => ?_
  refine Yields.mono (((tracks.prepareBounded _ now).bind tracks.toGraded fun _ =>
    (tracks.submitPrepared now).bind tracks.toGraded fun _ =>
    (tracks.pollCompletions now).bindSilent tracks.toGraded fun _ => guarantee_pure _) _) ?_ ?_
  · exact fun _ _ hm => tracks.append (tracks.poll now m) hm
  · exact fun _ _ hm => tracks.append (tracks.poll now m) hm

theorem Tracks.runDistributedTurn :
    Traces relation (runDistributedTurn env protocol now) fun m => ensureReady.seen m fun _ m =>
      (Scheduling.expireDeadlinesDistributed env protocol now).seen m fun _ m =>
        distributedPasses env protocol now m ++
          (Scheduling.pollDistributed env protocol now).seen m fun _ m =>
            agreedPasses env protocol now m := by
  have := tracks.preorder
  refine ensureReady_guarantee.bindTraces tracks.toGraded fun _ =>
    (tracks.expireDeadlinesDistributed protocol now).bindTraces tracks.toGraded fun _ =>
    (tracks.pollDistributed protocol now).bind tracks.toGraded fun progress => ?_
  intro m
  exact ((tracks.prepareBounded _ now).bind tracks.toGraded fun _ =>
    (tracks.submitAgreed protocol now).bindSilent tracks.toGraded fun _ => guarantee_pure _) m

theorem Tracks.perform : Traces relation (perform env command) fun m => passes env m command := by
  have := tracks.preorder
  have hs : ∀ {α : Type} {method : Op Ω W S B O α},
      Guarantee (relation []) method → ∀ value : α → SchedulerProgress W O,
      Traces relation (do let result ← method; pure (value result)) fun _ => [] :=
    fun hg value => (hg.bind fun _ => guarantee_pure _).traces
  cases command with
  | register request state => exact hs (tracks.register request state) _
  | requestStateMut request access => exact hs (tracks.requestStateMut request access) _
  | enqueueBatch request work =>
    exact (tracks.enqueueBatch request work).bindSilent tracks.toGraded fun _ => guarantee_pure _
  | prepareBounded limit now =>
    exact (tracks.prepareBounded limit now).bindSilent tracks.toGraded fun _ => guarantee_pure _
  | submitPrepared now =>
    exact (tracks.submitPrepared now).bindSilent tracks.toGraded fun _ => guarantee_pure _
  | pollCompletions now => exact tracks.pollCompletions now
  | runLocalTurn now => exact tracks.runLocalTurn now
  | runDistributedTurn protocol now => exact tracks.runDistributedTurn protocol now
  | cancel request now => exact hs (tracks.cancelInternal request .explicit now) _
  | cancelDistributed protocol request now =>
    exact hs (tracks.cancelDistributed protocol request now) _
  | finish request => exact hs (tracks.finishRequest request) _
  | release request => exact hs (tracks.release request) _
  | forgetTerminal request => exact hs (tracks.forgetTerminal request) _
  | outside change =>
    exact (guarantee_modify fun m => tracks.world m (change m.world)).bind fun _ => guarantee_pure _

theorem Tracks.step : relation (passes env m command) m (step env m command) :=
  (tracks.perform command).final m

theorem Tracks.run (commands : List (Command Ω W S)) :
    relation (runPasses env m commands) m (run env m commands) := by
  induction commands generalizing m with
  | nil => exact tracks.nil m
  | cons command rest ih =>
    exact tracks.append (tracks.step m command) (ih (Scheduling.step env m command))

end Calls

end Eredu.Scheduling
