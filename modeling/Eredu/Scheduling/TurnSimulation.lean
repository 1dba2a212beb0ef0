import Eredu.Foundation.Agreement
import Eredu.Scheduling.Loops

/-!
# The phases of a turn follow the ledger protocol

Preparation, submission and completion, and the local and distributed turns.
-/

namespace Eredu.Scheduling

open Std Ledger Effect List Scheduler Machine Transition

variable {Ω W S B O : Type}
variable (env : Environment Ω W S B O)
variable {m : Machine Ω W S B O} (s : Scheduler W S B O)

/-- A scan over `waiting`, with the requests of `done` already behind it, takes out the first request
that can branch; without one the queue is again in its first order. -/
theorem selectReady_append (waiting done : List RequestId) :
    selectReady env s waiting.length (waiting ++ done) =
      match waiting.dropWhile fun request => !canBranch env s request with
      | [] => (none, done ++ waiting)
      | request :: rest => (some request, rest ++ done ++
          waiting.takeWhile fun request => !canBranch env s request) := by
  induction waiting generalizing done with
  | nil => simp [selectReady]
  | cons request waiting ih =>
    rw [length_cons, cons_append, selectReady]
    by_cases hb : canBranch env s request = true
    · simp [hb]
    · rw [if_neg hb, append_assoc, ih]
      simp [hb]

theorem selectReady_eq (ready : List RequestId) :
    match selectReady env s ready.length ready with
    | (none, rotated) => rotated = ready ∧ ∀ request ∈ ready, canBranch env s request = false
    | (some request, rest) => canBranch env s request = true ∧ ∃ stalled others,
        ready = stalled ++ request :: others ∧ rest = others ++ stalled ∧
        ∀ other ∈ stalled, canBranch env s other = false := by
  have hsc := selectReady_append env s ready []
  have hs := ready.takeWhile_append_dropWhile (p := fun request => !canBranch env s request)
  rw [append_nil] at hsc
  rw [hsc]
  have stalled : ∀ other ∈ ready.takeWhile fun request => !canBranch env s request,
      canBranch env s other = false := fun other hl => by
    simpa using all_eq_true.mp all_takeWhile other hl
  cases rest : ready.dropWhile fun request => !canBranch env s request with
  | nil =>
    rw [rest, append_nil] at hs
    exact ⟨rfl, hs ▸ stalled⟩
  | cons request others =>
    rw [rest] at hs
    refine ⟨?_, _, others, hs.symm, by simp, stalled⟩
    have hf := List.head?_dropWhile_not (fun request => !canBranch env s request) ready
    simpa [rest] using hf

/-- The request a scan selects can branch, and the queue was only rotated. -/
theorem selectReady_rotates {request : RequestId} {ready : List RequestId}
    (hse : selectReady env m.scheduler m.scheduler.ready.length m.scheduler.ready =
      (some request, ready)) :
    canBranch env m.scheduler request = true ∧ (request :: ready).Perm m.scheduler.ready := by
  have hs := selectReady_eq env m.scheduler m.scheduler.ready
  rw [hse] at hs
  obtain ⟨hb, stalled, others, hq, rfl, -⟩ := hs
  refine ⟨hb, ?_⟩
  rw [hq, ← cons_append]
  exact perm_append_comm

theorem canBranch_spec {s : Scheduler W S B O} {request : RequestId}
    {entry : Request W S} (ha : s.requests[request]? = some entry)
    (hb : canBranch env s request = true) :
    (s.branchCount request = 0 ∨ env.permitsParallelBranches entry.state = true) ∧
      s.branchCount request < s.limits.maxInFlightPerRequest := by
  simpa [canBranch, ha] using hb

theorem failBeforeSubmission_reaches {before : Ledger W S B O} (id : WorkId)
    (now : Nat) (hs : before.Sound) (hr : Transition env.permitsParallelBranches before
      ((m.update fun s => ((s.setLifecycle id .failed).addFailedWork).releaseAccepted 1).ledger [])) :
    Reaches env.permitsParallelBranches before ((failBeforeSubmission env id now m).ledger []) :=
  .head hr (failRequest_reaches env id.request now (hs.transition hr))

theorem failBeforeSubmission_history (id : WorkId) (now : Nat) :
    (failBeforeSubmission env id now m).history = m.history :=
  failRequest_history env id.request now _

theorem lookup_insert_eq_update (lifecycle : TreeMap WorkId WorkLifecycle) (id : WorkId)
    (stage : WorkLifecycle) : (fun other : WorkId => (lifecycle.insert id stage)[other]?) =
      Function.update (fun other => lifecycle[other]?) id (some stage) := by
  funext other
  rw [lookup_insert, Function.update_apply]

variable (m) (prepared : Prepared W B) (rest : List (Prepared W B))

theorem refuseSubmission_reaches (branch : B) (now : Nat)
    (hso : (m.ledger []).Sound) (hf : m.scheduler.prepared = prepared :: rest) :
    Reaches env.permitsParallelBranches (m.ledger [])
      ((refuseSubmission env prepared rest branch now m).2.ledger []) := by
  unfold refuseSubmission discard
  dsimp only
  generalize hr : update { (m.update fun s => { s with prepared := rest }) with
      world := _ } _ = after
  have hs : Transition env.permitsParallelBranches (m.ledger []) (after.ledger []) := by
    refine (refuse prepared rest rfl hf).to ?_
    simp [← hr, ledger, update, setLifecycle,
      addFailedWork, releaseAccepted, lookup_insert_eq_update]
  exact .head hs (failRequest_reaches env prepared.id.request now (hso.transition hs))

theorem refuseSubmission_history (branch : B)
    (now : Nat) : (refuseSubmission env prepared rest branch now m).2.history = m.history :=
  failRequest_history env prepared.id.request now _

variable {m}

theorem recordSubmission_transition {prepared : Prepared W B}
    {rest : List (Prepared W B)} (branch : B) (output : O)
    (hf : m.scheduler.prepared = prepared :: rest)
    (hr : m.scheduler.submitted.length < m.scheduler.limits.maxInFlightGlobal) :
    Transition env.permitsParallelBranches (m.ledger [])
      ((m.update (recordSubmission env prepared rest branch output)).ledger []) := by
  refine (submit prepared rest
    ⟨prepared.id, prepared.work, branch, output, .publish⟩ rfl hf hr rfl rfl).to ?_
  simp [ledger, update, recordSubmission, setLifecycle, lookup_insert_eq_update]

theorem follows_advances : Advances env fun _ => Follows env where
  nil := refl_of (Follows env)
  append := trans_of (Follows env)
  toInterrupts := follows_interrupts env
  stall {m ready} hse now := by
    have hs := selectReady_eq env m.scheduler m.scheduler.ready
    rw [hse] at hs
    exact .of_transition env fun _ => .rotate ready (hs.1 ▸ .refl _)
  prepare {m request ready state next queued pending} hse ha descriptor branch world _ now := by
    obtain ⟨hb, hro⟩ := selectReady_rotates env hse
    obtain ⟨hp, hrm⟩ := canBranch_spec env ha hb
    refine .of_reaches env fun _ => .head (.rotate _ hro) (.single ?_)
    refine (prepare request _ { state, next, pending := queued :: pending } queued
      pending ⟨queued.id, queued.work, descriptor, branch, queued.deadline⟩ rfl rfl ha rfl
      ?_ ?_ rfl).to ?_
    rotate_left 2
    · simp [ledger, setLifecycle, lookup_insert_eq_update]
    · simpa [Ledger.branches, inFlight, ledger, branchCount] using hp
    · simpa [Ledger.branches, inFlight, ledger, branchCount] using hrm
  reject {m request ready state next queued pending} hse ha error world _ now := by
    have hr : Transition env.permitsParallelBranches (m.ledger [])
      { m.ledger [] with ready := request :: ready } := .rotate _ (selectReady_rotates env hse).2
    refine .of_reaches env (fun hso => .head hr (failBeforeSubmission_reaches env queued.id
      now (hso.transition hr) ?_)) (congrArg publishedIds (failBeforeSubmission_history env queued.id now))
    refine (Transition.reject request _ { state, next, pending := queued :: pending } queued
      pending rfl rfl ha rfl).to ?_
    simp [ledger, update, setLifecycle, addFailedWork, releaseAccepted, lookup_insert_eq_update]
  lost _ _ _ := refl_of (Follows env) _
  submit {m prepared rest now} hf _ hr output branch world _ :=
    .of_transition env fun _ => recordSubmission_transition env
      (m := ⟨m.scheduler, world, m.history⟩) branch output hf hr
  refuse {m prepared rest now} hf _ error branch world _ :=
    .of_reaches env (fun hso => refuseSubmission_reaches env ⟨m.scheduler, world, m.history⟩
      prepared rest branch now hso hf)
      (congrArg publishedIds (refuseSubmission_history env _ prepared rest branch now))
  drained count m := .of_ledger_eq env (by split <;> rfl)

/-- A pass of a completion loop over `work`: the moves that follow leave `kept` in its place, and
what they publish is what they add to the progress. -/
structure Passes (work : Submitted W B O)
    (kept : Option (Submitted W B O))
    (before after : SchedulerProgress W O × Machine Ω W S B O) :
    Prop where
  reaches : before.2.scheduler.submitted = [] → ∀ left right,
    (before.2.ledger (left ++ work :: right)).Sound →
    after.2.scheduler.submitted = [] ∧
      Reaches env.permitsParallelBranches (before.2.ledger (left ++ work :: right))
        (after.2.ledger (left ++ (kept.toList ++ right)))
  published : ∃ items, after.1.committed = before.1.committed ++ items ∧
    publishedIds after.2.history = publishedIds before.2.history ++ items.map (·.1)

variable {work : Submitted W B O} {progress : SchedulerProgress W O}
variable {before after : SchedulerProgress W O × Machine Ω W S B O}
  {kept : Option (Submitted W B O)}

theorem Passes.of_transition (hd : after.2.scheduler.submitted = before.2.scheduler.submitted)
    (hs : ∀ left right, Transition env.permitsParallelBranches
      (before.2.ledger (left ++ work :: right)) (after.2.ledger (left ++ (kept.toList ++ right))))
    (hc : after.1.committed = before.1.committed)
    (hh : after.2.history = before.2.history) : Passes env work kept before after where
  reaches ht left right _ := ⟨hd.trans ht, .single (hs left right)⟩
  published := ⟨[], by simp [hc], by simp [hh]⟩

theorem Passes.from {start : Machine Ω W S B O} (hpa : Passes env work kept (progress, m) after)
    (hs : m.ledger [] = start.ledger []) : Passes env work kept (progress, start) after := by
  simp only [ledger, Ledger.mk.injEq] at hs
  obtain ⟨hr, hp⟩ := hpa
  simp only [ledger, hs] at hr hp
  exact ⟨hr, hp⟩

variable (protocol : UInt64) (now : Nat)

theorem Passes.failRequest {settled : Machine Ω W S B O} (request : RequestId)
    (hd : settled.scheduler.submitted = before.2.scheduler.submitted)
    (hs : ∀ left right, Transition env.permitsParallelBranches
      (before.2.ledger (left ++ work :: right)) (settled.ledger (left ++ right)))
    (hc : progress.committed = before.1.committed)
    (hq : publishedIds settled.history = publishedIds before.2.history) :
    Passes env work none before (progress, failRequest env request now settled) where
  reaches ht left right hso :=
    ⟨failRequest_submitted env request now (hd.trans ht), .head (hs left right)
      (failRequest_reaches env request now (hso.transition (hs left right)))⟩
  published := ⟨[], by simp [hc], by simp [failRequest_history, hq]⟩

theorem resolveAbandoned_passes {cancelledAt : Nat} (hc : work.disposition = .abandon cancelledAt) :
    Passes env work none (progress, m) (resolveAbandoned env work cancelledAt now progress m) := by
  dsimp only [resolveAbandoned, discard]
  rcases env.discardBranch work.branch m.world with ⟨error | _, world⟩
  · refine .of_transition env rfl (fun left right => ?_) rfl rfl
    refine (settle left right work .failed rfl (.inr rfl)).to ?_
    simp [ledger, update, setLifecycle, addFailedWork, releaseAccepted, lookup_insert_eq_update]
  · exact .of_transition env rfl (fun left right =>
      (free left right work cancelledAt rfl hc).to rfl) rfl rfl

theorem resolveOrphaned_passes :
    Passes env work none (progress, m) (resolveOrphaned env work progress
      (m.update (·.setLifecycle work.id .completing))) := by
  dsimp only [resolveOrphaned, discard, update]
  rcases env.discardBranch work.branch m.world with ⟨error | _, world⟩
  · refine .of_transition env rfl (fun left right => ?_) rfl rfl
    refine (settle left right work .failed rfl (.inr rfl)).to ?_
    simp [ledger, setLifecycle, addFailedWork, releaseAccepted, lookup_insert_eq_update]
  · refine .of_transition env rfl (fun left right => ?_) rfl rfl
    refine (settle left right work .abandoned rfl (.inl rfl)).to ?_
    simp [ledger, setLifecycle, releaseAccepted, lookup_insert_eq_update]

theorem resolvePublished_passes {entry : Request W S} (hp : work.disposition = .publish)
    (ha : m.scheduler.requests[work.id.request]? = some entry) :
    Passes env work none (progress, m) (resolvePublished env work entry now progress
      (m.update (·.setLifecycle work.id .completing))) := by
  rcases hc : env.commitBranch entry.state work.branch m.world with
    ⟨⟨error | _, state⟩, world⟩ <;>
  simp only [resolvePublished, update, hc]
  · refine Passes.failRequest env now _ rfl (fun left right => ?_) rfl rfl
    refine (commit left right work entry state false rfl hp ha).to ?_
    simp [ledger, setLifecycle, addFailedWork,
      releaseAccepted, lookup_insert_eq_update, Except.toBool]
  · refine ⟨fun ht left right _ => ⟨ht, .single ?_⟩, [(work.id, work.work, work.output)], rfl, ?_⟩
    · refine (commit left right work entry state true rfl hp ha).to ?_
      simp [ledger, setLifecycle, releaseAccepted,
        lookup_insert_eq_update, Except.isOk, Except.toBool]
    · exact reverse_cons

theorem resolveFailed_passes :
    Passes env work none (progress, m) (resolveFailed env work now progress m) := by
  refine Passes.failRequest env now work.id.request rfl (fun left right => ?_) rfl rfl
  refine (settle left right work .failed rfl (.inr rfl)).to ?_
  simp [ledger, update, setLifecycle, releaseAccepted, lookup_insert_eq_update]

theorem resolveUnobservable_passes (error : String) (now : Nat) :
    Passes env work none (progress, m) (resolveUnobservable env work error now progress m) := by
  refine Passes.failRequest env now work.id.request ?_ (fun left right => ?_) rfl rfl
  · dsimp only [update]
    split <;> rfl
  · refine (settle left right work .failed rfl (.inr rfl)).to ?_
    dsimp only [update]
    split <;> simp [ledger, setLifecycle, addFailedWork, releaseAccepted, lookup_insert_eq_update]

theorem resolveCompleted_passes :
    Passes env work none (progress, m) (resolveCompleted env work now progress m) := by
  unfold resolveCompleted
  cases hd : work.disposition with
  | abandon cancelledAt => exact resolveAbandoned_passes env now hd
  | fail => exact resolveFailed_passes env now
  | publish =>
    dsimp only
    split
    · exact resolveOrphaned_passes env
    rename_i entry ha
    exact resolvePublished_passes env now hd ha

theorem Passes.keeps : Passes env work (some work) (progress, m) (progress, m) where
  reaches ht _ _ _ := ⟨ht, .refl⟩
  published := ⟨[], by simp, by simp⟩

/-- What holds of a pass of either completion loop. -/
def Settle.Sound {α : Type} (entry : α → Submitted W B O) (settle : Settle Ω W S B O α) : Prop :=
  ∀ item progress m, Passes env (entry item) (settle item progress m).1.1 (progress, m)
    ((settle item progress m).1.2, (settle item progress m).2)

theorem settleLocal_sound : Settle.Sound env id (settleLocal env now) := by
  intro work progress m
  rcases ho : env.isComplete work.output m.world with ⟨error | complete, world⟩
  · simp only [settleLocal, ho]
    exact (resolveUnobservable_passes env error now).from env rfl
  · cases complete with
    | false =>
      simp only [settleLocal, ho]
      exact (Passes.keeps env (m := ⟨m.scheduler, world, m.history⟩)).from env rfl
    | true =>
      simp only [settleLocal, ho]
      exact (resolveCompleted_passes env now).from env rfl

theorem settleDistributed_sound : Settle.Sound env Prod.fst (settleDistributed env now) := by
  rintro ⟨work, resolution⟩ progress m
  cases resolution with
  | incomplete => exact .keeps env
  | complete => exact resolveCompleted_passes env now
  | failedPending =>
    unfold settleDistributed
    dsimp only
    split
    · exact .keeps env
    refine .of_transition env rfl (fun left right => ?_) rfl rfl
    refine (condemn left right work rfl).to ?_
    simp [ledger, update, setLifecycle, addFailedWork, lookup_insert_eq_update]
  | failedComplete =>
    unfold settleDistributed
    dsimp only
    split
    · exact resolveCompleted_passes env now
    have hf : Passes env work none (progress, m.update (·.addFailedWork))
        (resolveFailed env work now progress (m.update (·.addFailedWork))) :=
      resolveFailed_passes env now
    exact hf.from env rfl

variable {α : Type} {settle : Settle Ω W S B O α} {entry : α → Submitted W B O}

theorem settleEach_reaches (he : Settle.Sound env entry settle)
    (items : List α) (progress : SchedulerProgress W O) (left : List (Submitted W B O))
    (m : Machine Ω W S B O) (ht : m.scheduler.submitted = [])
    (hs : (m.ledger (left ++ items.map entry)).Sound) :
    (settleEach settle items progress m).2.scheduler.submitted = [] ∧
      Reaches env.permitsParallelBranches (m.ledger (left ++ items.map entry))
        ((settleEach settle items progress m).2.ledger
          (left ++ (settleEach settle items progress m).1.1)) := by
  induction items generalizing progress left m with
  | nil => exact ⟨ht, .refl⟩
  | cons item rest ih =>
    obtain ⟨ht, hf⟩ := (he item progress m).reaches ht left (rest.map entry) hs
    have hl := hs.reaches hf
    rw [← append_assoc] at hf hl
    obtain ⟨ht, ho⟩ := ih _ (left ++ _) _ ht hl
    refine ⟨ht, hf.trans ?_⟩
    have ha : (settleEach settle (item :: rest) progress m).1.1 =
      (settle item progress m).1.1.toList ++
        (settleEach settle rest (settle item progress m).1.2 (settle item progress m).2).1.1 := rfl
    rw [ha, ← append_assoc]
    exact ho

theorem settleEach_published (he : Settle.Sound env entry settle)
    (items : List α) (progress : SchedulerProgress W O) (m : Machine Ω W S B O) :
    ∃ added, (settleEach settle items progress m).1.2.committed = progress.committed ++ added ∧
      publishedIds (settleEach settle items progress m).2.history =
        publishedIds m.history ++ added.map (·.1) := by
  induction items generalizing progress m with
  | nil => exact ⟨[], by simp [settleEach], by simp [settleEach]⟩
  | cons item rest ih =>
    obtain ⟨first, hc, hp⟩ := (he item progress m).published
    obtain ⟨others, hc', hp'⟩ := ih (settle item progress m).1.2 (settle item progress m).2
    refine ⟨first ++ others, hc'.trans ?_, hp'.trans ?_⟩
    · rw [hc, append_assoc]
    · rw [hp, map_append, append_assoc]

variable (entry)

theorem settleAll_reaches (he : Settle.Sound env entry settle)
    (items : List α) (now : Nat) (hc : items.map entry = m.scheduler.submitted)
    (hs : (m.ledger []).Sound) : Reaches env.permitsParallelBranches (m.ledger [])
      ((settleAll env settle items now m).2.ledger []) := by
  have hd : Transition env.permitsParallelBranches (m.ledger [])
      ((m.update fun s => { s with submitted := [] }).ledger (items.map entry)) :=
    (detach rfl).to (by rw [hc]; rfl)
  obtain ⟨ht, hl⟩ := settleEach_reaches env he items {} []
    (m.update fun s => { s with submitted := [] }) rfl (hs.transition hd)
  refine .head hd (hl.tail ?_)
  unfold settleAll
  generalize settleEach settle items {} _ = result at ht hl ⊢
  refine (attach now _ ht fun id => ?_).to rfl
  refine (lookup_markAll _ _ _ id).trans (if_congr ?_ rfl rfl)
  refine (mem_publishing _ (fun request => !result.2.scheduler.requests.contains request) id).trans ?_
  have ha : ∀ request : RequestId, (!result.2.scheduler.requests.contains request) = true ↔
      result.2.scheduler.requests[request]? = none := fun request => by
    rw [TreeMap.contains_eq_isSome_getElem?]
    cases result.2.scheduler.requests[request]? <;> simp
  simp only [ha, and_comm (b := Submitted.disposition _ = .publish)]
  rfl

theorem settleAll_delivers (he : Settle.Sound env entry settle)
    (items : List α) (now : Nat) (hco : items.map entry = m.scheduler.submitted) :
    Delivers env ((settleAll env settle items now m).1.committed.map (·.1)) m
      (settleAll env settle items now m).2 := by
  refine ⟨settleAll_reaches env entry he items now hco, ?_⟩
  obtain ⟨added, hc, hp⟩ := settleEach_published env he items {}
    (m.update fun s => { s with submitted := [] })
  exact hp.trans (congrArg (publishedIds m.history ++ List.map Prod.fst ·)
    (hc.trans (nil_append added)).symm)

theorem pollCompletions_delivers (m : Machine Ω W S B O) :
    Delivers env ((pollCompletions env now m).1.committed.map (·.1)) m
      (pollCompletions env now m).2 :=
  settleAll_delivers env id (settleLocal_sound env now) m.scheduler.submitted now (map_id _)

theorem observeAll_length (works : List (Submitted W B O)) (world : Ω) :
    (observeAll env works world).1.length = works.length := by
  induction works generalizing world with
  | nil => rfl
  | cons work rest ih => simpa [observeAll] using ih (observe env work world).2

/-- The agreed resolutions answer the reported completions one to one. -/
theorem resolveOutputCompletionsBounded_length (transport : Transport Ω) (protocol : UInt64)
    (completions : List LocalCompletion) (world : Ω) :
    (resolveOutputCompletionsBounded transport protocol completions).Yields world
      (fun resolutions _ => resolutions.length = completions.length) (fun _ _ => True) := by
  simp only [resolveOutputCompletionsBounded, yields_bind, yields_ofResult]
  split
  · split
    · simp
    simp only [yields_bind, yields_ofResult]
    split
    · refine (yields_true _ _).mono (fun gathered world _ => ?_) fun _ _ _ => trivial
      split
      · split
        · rename_i hr
          simpa using (mapM_eq_ok.mp hr).length_eq.symm
        · trivial
      · trivial
    · trivial
  · trivial

theorem pollDistributed_delivers (m : Machine Ω W S B O) :
    (pollDistributed env protocol now).Yields m
      (fun progress => Delivers env (progress.committed.map (·.1)) m) (fun _ => Follows env m) := by
  simp only [pollDistributed, yields_bind, yields_apply, consult, yields_attemptOn]
  have ho := observeAll_length env m.scheduler.submitted m.world
  generalize observeAll env m.scheduler.submitted m.world = observations at ho ⊢
  obtain ⟨completions, world⟩ := observations
  refine (resolveOutputCompletionsBounded_length env.transport protocol completions world).mono ?_ ?_
  · intro resolutions later ha
    have hc : Follows env m ⟨m.scheduler, later, m.history⟩ := .of_ledger_eq env rfl
    refine hc.trans env (settleAll_delivers env Prod.fst (settleDistributed_sound env now)
      (m.scheduler.submitted.zip resolutions) now ?_)
    exact map_fst_zip (by rw [ha]; exact ho.ge)
  · rintro (error | message) later _
    · have hp := poison_reaches env error.toText now (m := ⟨m.scheduler, later, m.history⟩)
      exact .of_reaches env hp (congrArg publishedIds (poison_history env _ now _))
    · exact Follows.of_ledger_eq env rfl

/-- The method publishes what its progress lists when it returns, and nothing when it stops. -/
def Reports (method : Op Ω W S B O (SchedulerProgress W O)) : Prop :=
  ∀ m, method.Yields m (fun progress => Delivers env (progress.committed.map (·.1)) m)
    (fun _ => Follows env m)

def inTwoPhases (opening closing : Op Ω W S B O (SchedulerProgress W O)) :
    Op Ω W S B O (SchedulerProgress W O) := do
  let progress ← opening
  let later ← closing
  pure { newlySubmitted := later.newlySubmitted
         committed := progress.committed ++ later.committed
         failed := progress.failed ++ later.failed }

def localOpening : Op Ω W S B O (SchedulerProgress W O) := do
  ensureReady
  Effect.apply (pollCompletions env now)

def localClosing : Op Ω W S B O (SchedulerProgress W O) := do
  let _ ← prepareBounded env (← get).scheduler.limits.maxNewSubmissionsPerTurn now
  let newlySubmitted ← submitPrepared env now
  let afterSubmit ← Effect.apply (pollCompletions env now)
  pure { afterSubmit with newlySubmitted }

/-- A distributed turn up to the end of its poll. -/
def distributedOpening : Op Ω W S B O (SchedulerProgress W O) := do
  ensureReady
  expireDeadlinesDistributed env protocol now
  pollDistributed env protocol now

def distributedClosing : Op Ω W S B O (SchedulerProgress W O) := do
  let _ ← prepareBounded env (← get).scheduler.limits.maxNewSubmissionsPerTurn now
  let newlySubmitted ← submitAgreed env protocol now
  pure { newlySubmitted }

theorem runLocalTurn_eq :
    runLocalTurn env now = inTwoPhases (localOpening env now) (localClosing env now) := by
  simp only [runLocalTurn, inTwoPhases, localOpening, localClosing, bind_assoc, pure_bind]

theorem runDistributedTurn_eq : runDistributedTurn env protocol now =
      inTwoPhases (distributedOpening env protocol now) (distributedClosing env protocol now) := by
  simp only [runDistributedTurn, inTwoPhases, distributedOpening, distributedClosing, bind_assoc,
    pure_bind, append_nil]

theorem localOpening_reports : Reports env (localOpening env now) := by
  intro m
  unfold localOpening
  rw [yields_bind]
  refine (ensureReady_yields m).mono ?_ ?_
  · rintro _ m ⟨rfl, -⟩
    exact pollCompletions_delivers env now m
  · rintro _ _ rfl
    exact refl_of (Follows env) _

theorem localClosing_reports : Reports env (localClosing env now) := by
  intro m
  simp only [localClosing, yields_bind]
  refine ((follows_advances env).prepareBounded _ now m).mono ?_ fun _ _ => id
  intro _ prepared hp
  refine (Guarantee.from ((follows_advances env).submitPrepared now) hp).mono ?_ fun _ _ => id
  intro count submitted hs
  exact hs.trans env (pollCompletions_delivers env now submitted)

theorem distributedOpening_reports : Reports env (distributedOpening env protocol now) := by
  intro m
  unfold distributedOpening
  rw [yields_bind]
  refine (ensureReady_yields m).mono ?_ ?_
  · rintro _ m ⟨rfl, -⟩
    rw [yields_bind]
    refine ((follows_interrupts env).expireDeadlinesDistributed protocol now m).mono ?_ fun _ _ => id
    intro _ expired he
    refine (pollDistributed_delivers env protocol now expired).mono ?_ ?_
    · exact fun _ _ hd => he.trans env hd
    · exact fun _ _ hm => trans_of (Follows env) he hm
  · rintro _ _ rfl
    exact refl_of (Follows env) _

theorem distributedClosing_reports : Reports env (distributedClosing env protocol now) := by
  intro m
  simp only [distributedClosing, yields_bind]
  refine ((follows_advances env).prepareBounded _ now m).mono ?_ fun _ _ => id
  intro _ prepared hp
  exact Guarantee.from ((follows_advances env).submitAgreed protocol now) hp

theorem Reports.inTwoPhases_reaches {opening closing : Op Ω W S B O (SchedulerProgress W O)}
    (ho : Reports env opening) (hc : Reports env closing) (hs : (m.ledger []).Sound) :
    Reaches env.permitsParallelBranches (m.ledger [])
      (((inTwoPhases opening closing).final m).ledger []) := by
  have hmo : (inTwoPhases opening closing).Yields m
      (fun _ after => ∃ ids, Delivers env ids m after)
      (fun _ after => ∃ ids, Delivers env ids m after) := by
    rw [inTwoPhases, yields_bind]
    refine (ho m).mono (fun progress middle hd => ?_) fun _ _ hm => ⟨[], hm⟩
    rw [yields_bind]
    refine (hc middle).mono ?_ ?_
    · exact fun later after hd' => ⟨_, hd.trans env hd'⟩
    · exact fun _ after hm => ⟨_, hd.trans env hm⟩
  obtain ⟨ids, hd⟩ := hmo.final
  exact hd.reaches hs

end Eredu.Scheduling
