import Eredu.Foundation.Traced
import Eredu.Scheduling.Simulation

/-!
# The preparation and submission loops

The loops prepare and submit one item per pass. The trace of a call lists the passes
it makes, each with the machine it starts from. What a graded relation keeps between
passes and along each kind of pass, it keeps along the loops.
-/

namespace Eredu.Scheduling

open Std Effect Ledger

variable {Ω W S B O : Type}

/-- A pass of one of the loops, or a call that queues work, and the machine it starts from. A settling
pass looks at one entry of the submitted list; `completed` says that it finds the entry complete. -/
inductive Pass (Ω W S B O : Type) where
  | enqueuing (request : RequestId) (m : Machine Ω W S B O)
  | preparing (now : Nat) (m : Machine Ω W S B O)
  | submitting (now : Nat) (m : Machine Ω W S B O)
  | settling (work : Submitted W B O) (completed : Bool) (m : Machine Ω W S B O)

variable (env : Environment Ω W S B O) (now : Nat)

def preparePasses (now : Nat) : Nat → Machine Ω W S B O →
    List (Pass Ω W S B O)
  | 0, _ => []
  | remaining + 1, m => .preparing now m :: (prepareNext env now).seen m fun prepared m =>
      if prepared then preparePasses now remaining m else []

def boundedPasses (limit now : Nat) (m : Machine Ω W S B O) : List (Pass Ω W S B O) :=
  ensureReady.seen m fun _ m =>
    if limit = 0 then []
    else (expireDeadlines env now).seen m fun _ m => preparePasses env now limit m

/-- One pass of the submission loop over the first prepared entry. Returns how many entries it
submitted. -/
def submitNext (prepared : Prepared W B) (rest : List (Prepared W B)) : Op Ω W S B O Nat :=
  if deadlinePassed prepared.deadline now then do
    cancelInternal env prepared.id.request .deadline now
    pure 0
  else do
    let (outcome, branch) ← Effect.apply fun m =>
      let (outcome, world) := env.execute prepared.id prepared.work prepared.branch m.world
      (outcome, { m with world })
    match outcome with
    | .error error => do
        let discarded ← Effect.apply (refuseSubmission env prepared rest branch now)
        Effect.fail (.submission (withDiscardError error discarded))
    | .ok output => do
        modify fun m => m.update (recordSubmission env prepared rest branch output)
        pure 1

theorem submitMany_succ (now capacity passes count : Nat) :
    submitMany env now capacity (passes + 1) count = (do
      if capacity ≤ count then
        pure count
      else
        match (← get).scheduler.prepared with
        | [] => pure count
        | prepared :: rest =>
            let added ← submitNext env now prepared rest
            submitMany env now capacity passes (count + added)) := by
  rw [submitMany]
  split
  · rfl
  congr 1
  funext m
  cases m.scheduler.prepared with
  | nil => rfl
  | cons prepared rest =>
    dsimp only [submitNext]
    split
    · simp only [bind_assoc, pure_bind, add_zero]
    rw [bind_assoc]
    congr 1
    funext result
    obtain ⟨error | output, branch⟩ := result
    · dsimp only
      rfl
    · simp only [bind_assoc, pure_bind]

def submitPasses (now capacity : Nat) : Nat → Nat → Machine Ω W S B O →
    List (Pass Ω W S B O)
  | 0, _, _ => []
  | passes + 1, count, m =>
      if capacity ≤ count then []
      else
        match m.scheduler.prepared with
        | [] => []
        | prepared :: rest =>
            (if deadlinePassed prepared.deadline now then [] else [.submitting now m]) ++
              (submitNext env now prepared rest).seen m fun added m =>
                submitPasses now capacity passes (count + added) m

def submittedPasses (m : Machine Ω W S B O) : List (Pass Ω W S B O) :=
  ensureReady.seen m fun _ m => (expireDeadlines env now).seen m fun _ m =>
    submitPasses env now (submissionCapacity m.scheduler) m.scheduler.prepared.length 0 m

def queueOf (requests : TreeMap RequestId (Request W S)) (request : RequestId) : List (Queued W) :=
  (requests[request]?.map (·.pending)).getD []

/-- A relation that is kept between the passes and along each pass that prepares or submits. -/
structure Advances (relation : List (Pass Ω W S B O) →
    Machine Ω W S B O → Machine Ω W S B O → Prop) :
    Prop extends Graded relation, Interrupts env (relation []) where
  stall : ∀ {m ready}, selectReady env m.scheduler m.scheduler.ready.length m.scheduler.ready =
    (none, ready) → ∀ now, relation [.preparing now m] m (m.update fun s => { s with ready })
  prepare : ∀ {m request ready state next queued pending},
    selectReady env m.scheduler m.scheduler.ready.length m.scheduler.ready = (some request, ready) →
    m.scheduler.requests[request]? = some ⟨state, next, queued :: pending⟩ →
    ∀ {descriptor branch world},
    describeAndBranch env m.scheduler.limits queued state m.world =
      (.ok (descriptor, branch), world) → ∀ now,
    relation [.preparing now m] m
      { m with
        scheduler := { m.scheduler.setLifecycle queued.id .prepared with
          requests := m.scheduler.requests.insert request ⟨state, next, pending⟩
          ready := if pending.isEmpty then ready else ready ++ [request]
          prepared := m.scheduler.prepared ++
            [⟨queued.id, queued.work, descriptor, branch, queued.deadline⟩] }
        world
        history := .branched queued.id state :: m.history }
  reject : ∀ {m request ready state next queued pending},
    selectReady env m.scheduler m.scheduler.ready.length m.scheduler.ready = (some request, ready) →
    m.scheduler.requests[request]? = some ⟨state, next, queued :: pending⟩ →
    ∀ {error world},
    describeAndBranch env m.scheduler.limits queued state m.world = (.error error, world) → ∀ now,
    relation [.preparing now m] m (failBeforeSubmission env queued.id now
      { m with
        scheduler := { m.scheduler with
          requests := m.scheduler.requests.insert request ⟨state, next, pending⟩
          ready := if pending.isEmpty then ready else ready ++ [request] }
        world })
  /-- A selected request without queued work ends in a panic. -/
  lost : ∀ {m request ready},
    selectReady env m.scheduler m.scheduler.ready.length m.scheduler.ready = (some request, ready) →
    queueOf m.scheduler.requests request = [] → ∀ now, relation [.preparing now m] m m
  submit : ∀ {m prepared rest now}, m.scheduler.prepared = prepared :: rest →
    deadlinePassed prepared.deadline now = false →
    m.scheduler.submitted.length < m.scheduler.limits.maxInFlightGlobal →
    ∀ {output branch world},
    env.execute prepared.id prepared.work prepared.branch m.world = ((.ok output, branch), world) →
    relation [.submitting now m] m
      (Machine.update { m with world } (recordSubmission env prepared rest branch output))
  refuse : ∀ {m prepared rest now}, m.scheduler.prepared = prepared :: rest →
    deadlinePassed prepared.deadline now = false → ∀ {error branch world},
    env.execute prepared.id prepared.work prepared.branch m.world =
      ((.error error, branch), world) →
    relation [.submitting now m] m (refuseSubmission env prepared rest branch now { m with world }).2
  drained : ∀ (count : Nat) m, relation [] m (updateAbandonedResourcePeak env (if count ≠ 0 then
    m.update fun s => { s with drainCycles := saturatingAdd s.drainCycles 1 } else m))

section Loops

variable {env}
variable {relation : List (Pass Ω W S B O) →
  Machine Ω W S B O → Machine Ω W S B O → Prop}
  (advances : Advances env relation)

include advances

theorem Advances.preorder : IsPreorder (Machine Ω W S B O) (relation []) :=
  advances.toGraded.isPreorder

theorem Advances.prepareNext :
    Traces relation (prepareNext env now) fun m => [.preparing now m] := by
  intro m
  simp only [Scheduling.prepareNext, yields_bind, yields_get]
  split
  · next ready hs => exact advances.stall hs now
  rename_i request ready hs
  split
  · next state next queued pending ha =>
    simp only [yields_bind, yields_modify, yields_apply]
    rcases hd : describeAndBranch env m.scheduler.limits queued state m.world with
      ⟨error | ⟨descriptor, branch⟩, world⟩
    · simp only [Machine.update, hd]
      exact advances.reject hs ha hd now
    · simp only [Machine.update, hd]
      exact advances.prepare hs ha hd now
  · next hi =>
    refine advances.lost hs ?_ now
    unfold queueOf
    rcases ha : m.scheduler.requests[request]? with _ | ⟨state, next, _ | ⟨queued, pending⟩⟩
    · rfl
    · rfl
    · exact absurd ha (hi state next queued pending)

theorem Advances.prepareMany (now remaining : Nat) :
    Traces relation (prepareMany env now remaining) (preparePasses env now remaining) := by
  have := advances.preorder
  induction remaining with
  | zero => exact advances.nil
  | succ remaining ih =>
    refine (advances.prepareNext now).bind advances.toGraded fun prepared => ?_
    cases prepared with
    | true => exact ih.bindSilent advances.toGraded fun _ => guarantee_pure _
    | false => exact advances.nil

theorem Advances.prepareBounded (limit now : Nat) :
    Traces relation (prepareBounded env limit now) (boundedPasses env limit now) := by
  have := advances.preorder
  refine ensureReady_guarantee.bindTraces advances.toGraded fun _ => ?_
  by_cases hz : limit = 0
  · simp only [hz]
    exact advances.nil
  · simp only [hz]
    exact (advances.expireDeadlines now).bindTraces advances.toGraded fun _ =>
      advances.prepareMany now limit

/-- One pass submits at most one entry, for which there is room. -/
theorem Advances.submitNext {m : Machine Ω W S B O}
    {prepared : Prepared W B} {rest : List (Prepared W B)}
    (hf : m.scheduler.prepared = prepared :: rest)
    (hr : m.scheduler.submitted.length < m.scheduler.limits.maxInFlightGlobal) (now : Nat) :
    (submitNext env now prepared rest).Yields m (fun added after => relation
          (if deadlinePassed prepared.deadline now then [] else [.submitting now m]) m after ∧
        after.scheduler.limits = m.scheduler.limits ∧
        after.scheduler.submitted.length = m.scheduler.submitted.length + added) (fun _ => relation
        (if deadlinePassed prepared.deadline now then [] else [.submitting now m]) m) := by
  have := advances.preorder
  unfold Scheduling.submitNext
  split
  · simp only [yields_bind]
    refine ((advances.cancelInternal prepared.id.request .deadline now m).and
      (cancelInternal_curbs env prepared.id.request .deadline now m)).mono ?_ fun _ _ hs => hs.1
    exact fun _ _ hs => ⟨hs.1, hs.2.limits, hs.2.length⟩
  · next ha =>
    have ha := Bool.eq_false_iff.mpr ha
    rcases he : env.execute prepared.id prepared.work prepared.branch m.world with
      ⟨⟨error | output, branch⟩, world⟩ <;>
    simp only [yields_bind, yields_apply, he]
    · exact advances.refuse hf ha he
    · exact ⟨advances.submit hf ha hr he, rfl, List.length_append⟩

/-- The submission loop stays within the capacity it was given: `count` entries were submitted since
and the rest still fits. -/
theorem Advances.submitMany (now capacity passes count : Nat) (m : Machine Ω W S B O)
    (hw : capacity ≤
      count + (m.scheduler.limits.maxInFlightGlobal - m.scheduler.submitted.length)) :
    (submitMany env now capacity passes count).Yields m
      (fun _ => relation (submitPasses env now capacity passes count m) m)
      (fun _ => relation (submitPasses env now capacity passes count m) m) := by
  induction passes generalizing count m with
  | zero => exact advances.nil m
  | succ passes ih =>
    rw [submitMany_succ, submitPasses]
    split
    · exact advances.nil m
    simp only [yields_bind, yields_get]
    cases hf : m.scheduler.prepared with
    | nil => exact advances.nil m
    | cons prepared rest =>
      have hr : m.scheduler.submitted.length < m.scheduler.limits.maxInFlightGlobal := by omega
      refine advances.toGraded.yields_bind rfl _ (advances.submitNext hf hr now) ?_
      rintro added after ⟨hl, hg⟩
      refine ih (count + added) after ?_
      rw [hl, hg]
      omega

theorem Advances.submitPrepared :
    Traces relation (submitPrepared env now) (submittedPasses env now) := by
  have := advances.preorder
  refine ensureReady_guarantee.bindTraces advances.toGraded fun _ =>
    (advances.expireDeadlines now).bindTraces advances.toGraded fun _ => ?_
  intro m
  rw [yields_bind, yields_get, yields_bind]
  refine (advances.submitMany now _ m.scheduler.prepared.length 0 m ?_).mono ?_ fun _ _ => id
  · simp [submissionCapacity]
  · exact fun count after hm => (congrArg (relation · m _) (List.append_nil _)).mp
      (advances.append hm (advances.drained count after))

theorem Advances.submitAgreed (protocol : UInt64) (now : Nat) :
    Traces relation (submitAgreed env protocol now) fun m =>
      (Scheduling.consult (validateScheduleBounded env.transport (submissionPlan m.scheduler)
        (UInt64.ofNat m.scheduler.drainCycles) protocol)).seen m fun validated m =>
          match validated with
          | .error _ => []
          | .ok () => submittedPasses env now m := by
  have := advances.preorder
  intro m
  rw [Scheduling.submitAgreed, yields_bind, yields_get]
  refine (advances.consult _).bindTraces advances.toGraded (fun validated => ?_) m
  cases validated with
  | error error => exact advances.poisonThen _ _ now
  | ok _ =>
    refine (advances.submitPrepared now).attempt.bindSilent advances.toGraded fun submission => ?_
    refine guarantee_get.bind fun m => (advances.consult _).bind fun agreed => ?_
    split
    · split
      · exact guarantee_pure _
      · exact advances.nil
    · exact advances.poisonThen _ _ now
    · exact advances.poisonThen _ _ now

end Loops

end Eredu.Scheduling
