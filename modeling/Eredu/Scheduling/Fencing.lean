import Eredu.Scheduling.Runs

/-!
# Poisoned schedulers

A scheduler is poisoned by `poison`, which ends every request, or by `fence`,
which only refuses later calls. Completion polling stays available to drain what
was submitted. A poisoned scheduler is quiet from then on if it retains no
submission that may publish and can complete: `poison` leaves none, `fence` may.
-/

namespace Eredu.Scheduling

open Std Ledger Effect Option List

variable {Ω W S B O : Type}
variable {m before middle after : Machine Ω W S B O}

/-- Nothing was published: no branch was committed, no canonical state changed and no work moved to
`committed`. Requests may have ended. -/
structure Silent (before after : Machine Ω W S B O) : Prop where
  history : after.history = before.history
  requests : ∀ (request : RequestId) entry, after.scheduler.requests[request]? = some entry →
    before.scheduler.requests[request]? = some entry
  committed : ∀ id : WorkId, after.scheduler.lifecycle[id]? = some .committed →
    before.scheduler.lifecycle[id]? = some .committed
  poisoned : after.scheduler.poisoned = before.scheduler.poisoned

variable (m)

theorem Silent.refl : Silent m m :=
  ⟨rfl, fun _ _ => id, fun _ => id, rfl⟩

theorem Silent.trans (hf : Silent before middle) (hs : Silent middle after) :
    Silent before after where
  history := hs.history.trans hf.history
  requests request entry hp :=
    hf.requests request entry (hs.requests request entry hp)
  committed id hc := hf.committed id (hs.committed id hc)
  poisoned := hs.poisoned.trans hf.poisoned

theorem Silent.of_mark {stage : WorkLifecycle} (ids : List WorkId)
    (hh : after.history = before.history)
    (hr : after.scheduler.requests = before.scheduler.requests)
    (hp : after.scheduler.poisoned = before.scheduler.poisoned)
    (hm : after.scheduler.lifecycle = markAll before.scheduler.lifecycle ids stage)
    (hu : stage ≠ .committed) : Silent before after where
  history := hh
  requests request entry hpr := by rwa [hr] at hpr
  committed id hc := by
    rw [hm, lookup_markAll] at hc
    split at hc
    · exact absurd (some.inj hc) hu
    · exact hc
  poisoned := hp

theorem Silent.of_unmarked (hh : after.history = before.history)
    (hr : after.scheduler.requests = before.scheduler.requests)
    (hp : after.scheduler.poisoned = before.scheduler.poisoned)
    (hl : after.scheduler.lifecycle = before.scheduler.lifecycle) : Silent before after where
  history := hh
  requests request entry hpr := by rwa [hr] at hpr
  committed id hc := by rwa [hl] at hc
  poisoned := hp

theorem Withdraws.silent {request : RequestId} {entry : Request W S} {stage : WorkLifecycle}
    (hw : Withdraws request entry stage before after) (hu : stage ≠ .committed) :
    Silent before after where
  history := hw.history
  requests other found hp := by
    have hr : after.scheduler.requests = before.scheduler.requests.erase request :=
      congrArg Ledger.requests (hw.ledger [])
    rw [hr, lookup_erase] at hp
    split at hp
    · cases hp
    · exact hp
  committed id hc := by
    by_cases hl : id ∈ entry.pending.map (·.id) ∨
        id ∈ (before.scheduler.prepared.filter fun work => work.id.request = request).map (·.id)
    · -- Everything that left with the request got `stage`, `abandoned` or `failed`.
      have hst := hw.touched id hl
      rw [hc] at hst
      rcases hst with hs | hs | hs
      · exact absurd (some.inj hs).symm hu
      · cases hs
      · cases hs
    · rw [not_or] at hl
      rwa [hw.untouched id hl.1 hl.2] at hc
  poisoned := hw.poisoned

variable (env : Environment Ω W S B O)

theorem failRequest_silent (request : RequestId) (now : Nat)
    (m : Machine Ω W S B O) : Silent m (failRequest env request now m) := by
  unfold failRequest
  split
  · exact .refl m
  rename_i entry ha
  have hw := withdrawRequest_withdraws env request entry .failed m
  apply (hw.silent nofun).trans
  exact .of_mark _ rfl rfl rfl rfl nofun

/-- What a pass does to an entry that may not publish: it stays or leaves, and nothing else is
published or submitted. -/
structure Drained (work : Submitted W B O)
    (kept : Option (Submitted W B O))
    (before after : Machine Ω W S B O) : Prop where
  kept : kept = none ∨ kept = some work
  silent : Silent before after

theorem discard_silent (branch : B) (m : Machine Ω W S B O) :
    Silent m (discard env branch m).2 := .of_unmarked rfl rfl rfl rfl

variable {work : Submitted W B O} (progress : SchedulerProgress W O)

theorem resolveAbandoned_silent (cancelledAt now : Nat) (m : Machine Ω W S B O) :
    Silent m (resolveAbandoned env work cancelledAt now progress m).2 := by
  have hd := discard_silent env work.branch m
  unfold resolveAbandoned
  generalize discard env work.branch m = result at hd ⊢
  obtain ⟨_ | _, m⟩ := result
  · exact hd.trans (.of_mark [work.id] rfl rfl rfl rfl nofun)
  · exact hd.trans (.of_unmarked rfl rfl rfl rfl)

theorem failMarked_silent {id : WorkId} (now : Nat) {update : Scheduler W S B O → Scheduler W S B O}
    {m : Machine Ω W S B O} (hr : (update m.scheduler).requests = m.scheduler.requests)
    (hp : (update m.scheduler).poisoned = m.scheduler.poisoned)
    (hl : (update m.scheduler).lifecycle = m.scheduler.lifecycle.insert id .failed) :
    Silent m (failRequest env id.request now (m.update update)) := by
  have hm : Silent m (m.update update) := .of_mark [id] rfl hr hp hl nofun
  exact hm.trans (failRequest_silent env id.request now _)

variable (now : Nat)

theorem resolveFailed_silent (m : Machine Ω W S B O) :
    Silent m (resolveFailed env work now progress m).2 := by
  apply (discard_silent env work.branch m).trans
  exact failMarked_silent env now rfl rfl rfl

theorem resolveUnobservable_silent (error : String) (now : Nat) (m : Machine Ω W S B O) :
    Silent m (resolveUnobservable env work error now progress m).2 := by
  apply (discard_silent env work.branch m).trans
  apply failMarked_silent env now
  all_goals
    split <;> rfl

/-- The submission can never be resolved by publication: it has lost the right, or its output is never
observed complete. -/
def Submitted.Harmless (work : Submitted W B O) : Prop :=
  work.disposition = .publish → ∀ world, (env.isComplete work.output world).1 ≠ .ok true

theorem settleLocal_drained (hh : work.Harmless env) (m : Machine Ω W S B O) :
    Drained work (settleLocal env now work progress m).1.1 m
      (settleLocal env now work progress m).2 := by
  have ho : Silent m { m with world := (env.isComplete work.output m.world).2 } :=
    .of_unmarked rfl rfl rfl rfl
  unfold settleLocal
  dsimp only
  rcases hob : (env.isComplete work.output m.world).1 with error | complete
  · exact ⟨.inl rfl, ho.trans (resolveUnobservable_silent env progress error now _)⟩
  · cases complete with
    | false => exact ⟨.inr rfl, ho⟩
    | true =>
      refine ⟨.inl rfl, ho.trans ?_⟩
      unfold resolved resolveCompleted
      cases hd : work.disposition with
      | publish => exact absurd hob (hh hd m.world)
      | abandon cancelledAt => exact resolveAbandoned_silent env progress cancelledAt now _
      | fail => exact resolveFailed_silent env progress now _

/-- No retained submission can still publish. -/
def Closed (submitted : List (Submitted W B O)) : Prop :=
  ∀ work ∈ submitted, work.Harmless env

theorem settleEach_drained (works : List (Submitted W B O))
    (hc : Closed env works) (progress : SchedulerProgress W O) (m : Machine Ω W S B O) :
    (settleEach (settleLocal env now) works progress m).1.1 ⊆ works ∧
      Silent m (settleEach (settleLocal env now) works progress m).2 := by
  induction works generalizing progress m with
  | nil => exact ⟨List.Subset.refl _, .refl m⟩
  | cons work rest ih =>
    have hd := settleLocal_drained env progress now (hc work mem_cons_self) m
    unfold settleEach
    generalize settleLocal env now work progress m = result at hd ⊢
    obtain ⟨⟨kept, progress'⟩, m'⟩ := result
    have hla := ih (fun other hl => hc other (mem_cons_of_mem _ hl)) progress' m'
    refine ⟨append_subset.mpr ⟨?_, ?_⟩, hd.silent.trans hla.2⟩
    · rcases hd.kept with hg | hs
      · simp only at hg
        simp [hg]
      · simp only at hs
        simp [hs]
    · exact fun other hl => mem_cons_of_mem _ (hla.1 hl)

/-- From `before` to `after` nothing was published and nothing new was submitted. -/
structure Quiet (before after : Machine Ω W S B O) : Prop
    extends Silent before after where
  submitted : after.scheduler.submitted.map (·.id) ⊆ before.scheduler.submitted.map (·.id)

theorem Quiet.refl : Quiet m m :=
  ⟨.refl m, List.Subset.refl _⟩

variable {m}

theorem Quiet.trans (hf : Quiet before middle) (hs : Quiet middle after) : Quiet before after :=
  ⟨hf.toSilent.trans hs.toSilent, List.Subset.trans hs.submitted hf.submitted⟩

theorem pollCompletions_quiet (hc : Closed env m.scheduler.submitted) :
    Quiet m (pollCompletions env now m).2 ∧
      Closed env (pollCompletions env now m).2.scheduler.submitted := by
  have hd := settleEach_drained env now m.scheduler.submitted hc {}
    (m.update fun s => { s with submitted := [] })
  unfold pollCompletions settleAll
  generalize settleEach (settleLocal env now) m.scheduler.submitted {} _ = result at hd ⊢
  obtain ⟨hsu, hsi⟩ := hd
  have hst : Silent m (m.update fun s => { s with submitted := [] }) := .of_unmarked rfl rfl rfl rfl
  refine ⟨⟨(hst.trans hsi).trans (.of_mark _ rfl rfl rfl rfl nofun), ?_⟩, ?_⟩
  · intro id hl
    obtain ⟨repaired, hm, rfl⟩ := List.mem_map.mp hl
    obtain ⟨work, hs, rfl⟩ := List.mem_map.mp hm
    apply List.mem_map.mpr
    refine ⟨work, hsu hs, ?_⟩
    split <;> rfl
  · intro repaired hl
    obtain ⟨work, hs, rfl⟩ := List.mem_map.mp hl
    split
    · -- The repair only takes the right to publish away.
      intro hp
      cases hp
    · exact hc work (hsu hs)

def Refuses {α : Type} (method : Op Ω W S B O α) (m : Machine Ω W S B O) : Prop :=
  ∃ fault, method.outcome m = (.error fault, m)

theorem Refuses.bind {α β : Type} {first : Op Ω W S B O α}
    (hr : Refuses first m) (next : α → Op Ω W S B O β) : Refuses (first >>= next) m := by
  obtain ⟨fault, ho⟩ := hr
  exact ⟨fault, by rw [outcome_bind, ho]⟩

section

variable (hp : m.scheduler.poisoned.isSome)
include hp

theorem ensureReady_refuses : Refuses ensureReady m := by
  obtain ⟨reason, set⟩ := isSome_iff_exists.mp hp
  refine ⟨.error (.poisoned reason), ?_⟩
  simp [ensureReady, outcome_bind, set]

theorem step_poisoned (command : Command Ω W S) :
    (∃ now, command = .pollCompletions now) ∨ (∃ change, command = .outside change) ∨
      step env m command = m := by
  have hr : ∀ {α : Type} {method : Op Ω W S B O α}, Refuses method m → method.final m = m := by
    rintro α method ⟨fault, ho⟩
    rw [final, ho]
  have hre := ensureReady_refuses hp
  cases command with
  | pollCompletions now => exact .inl ⟨now, rfl⟩
  | outside change => exact .inr (.inl ⟨change, rfl⟩)
  | register request state => exact .inr (.inr (hr (((hre.bind _).bind _).bind _)))
  | runLocalTurn | runDistributedTurn => exact .inr (.inr (hr (hre.bind _)))
  | requestStateMut | enqueueBatch | prepareBounded | submitPrepared | cancel | cancelDistributed
  | finish | release | forgetTerminal => exact .inr (.inr (hr ((hre.bind _).bind _)))

theorem step_quiet (hc : Closed env m.scheduler.submitted) (command : Command Ω W S) :
    Quiet m (step env m command) ∧ Closed env (step env m command).scheduler.submitted := by
  rcases step_poisoned env hp command with ⟨now, rfl⟩ | ⟨change, rfl⟩ | hs
  · exact pollCompletions_quiet env now hc
  · exact ⟨⟨.of_unmarked rfl rfl rfl rfl, List.Subset.refl _⟩, hc⟩
  · rw [hs]
    exact ⟨.refl m, hc⟩

theorem run_quiet (hc : Closed env m.scheduler.submitted) (commands : List (Command Ω W S)) :
    Quiet m (run env m commands) := by
  induction commands generalizing m with
  | nil => exact .refl m
  | cons command rest ih =>
    obtain ⟨hq, hst⟩ := step_quiet env hp hc command
    have hs : (step env m command).scheduler.poisoned.isSome := by
      rw [hq.poisoned]
      exact hp
    exact hq.trans (ih hs hst)

end

theorem abandonPublished_closed (s : Scheduler W S B O) (now : Nat) :
    Closed env (s.abandonPublished (fun _ => true) now).submitted := by
  intro work hl
  obtain ⟨original, -, rfl⟩ := mem_map.mp hl
  split
  · intro hp
    cases hp
  · rename_i hu
    intro hp
    simp [hp] at hu

theorem poison_closed (reason : String) (now : Nat) (hr : m.scheduler.poisoned = none) :
    Closed env (poison env reason now m).scheduler.submitted := by
  simp only [poison, hr, isSome_none, Bool.false_eq_true]
  exact abandonPublished_closed env _ now

def linkedEnvironment : Environment Bool Bool Nat Nat Nat :=
  countingOver ⟨2, fun words up =>
    (if up then .completed (words ++ words) else .failed "link down", up)⟩

def linkedStart : Machine Bool Bool Nat Nat Nat where
  scheduler := { limits := ⟨2, 4, 2, 2, 1, 8⟩ }
  world := true

/-- One distributed turn submits a transition; then the link goes down and a distributed
cancellation fails. -/
def fencedRun : List (Command Bool Bool Nat) :=
  [.register ⟨0⟩ 0, .enqueueBatch ⟨0⟩ [(true, none)], .runDistributedTurn 7 0,
    .outside fun _ => false, .cancelDistributed 7 ⟨0⟩ 1]

/-- A poisoned scheduler that retains no submission which can still publish stays quiet under every
later call, and `poison` always leaves it so. -/
theorem poisoned_never_publishes (m : Machine Ω W S B O) :
    (m.scheduler.poisoned = none → ∀ reason now,
      Closed env (poison env reason now m).scheduler.submitted) ∧
    (m.scheduler.poisoned.isSome → Closed env m.scheduler.submitted →
      ∀ commands, Quiet m (run env m commands)) :=
  ⟨fun ready reason now => poison_closed env reason now ready,
    fun poisoned closed commands => run_quiet env poisoned closed commands⟩

/-- The cancellation only fences: the submission keeps its right to publish, and the next poll of the
poisoned scheduler commits it. -/
theorem fenced_scheduler_publishes :
    (run linkedEnvironment linkedStart fencedRun).scheduler.poisoned.isSome = true ∧
      publishedIds (run linkedEnvironment linkedStart fencedRun).history = [] ∧
      publishedIds (run linkedEnvironment linkedStart (fencedRun ++ [.pollCompletions 2])).history =
        [⟨⟨0⟩, 0⟩] := by
  decide

/-- The submission is cancelled before the link goes down under the next turn. -/
def severedRun : List (Command Bool Bool Nat) :=
  [.register ⟨0⟩ 0, .enqueueBatch ⟨0⟩ [(true, none)], .runDistributedTurn 7 0,
    .cancelDistributed 7 ⟨0⟩ 1, .outside fun _ => false, .runDistributedTurn 7 1]

/-- The poisoned scheduler still retains the abandoned submission, and the poll that drops it
publishes nothing. -/
theorem poisoned_never_publishes_linked :
    let m := run linkedEnvironment linkedStart severedRun
    m.scheduler.submitted.map (·.id) = [⟨⟨0⟩, 0⟩] ∧
      Quiet m (run linkedEnvironment m [.pollCompletions 2]) := by
  intro m
  have abandoned : m.scheduler.submitted.all fun work => decide (work.disposition ≠ .publish) := by
    decide
  rw [List.all_eq_true] at abandoned
  refine ⟨by decide, (poisoned_never_publishes linkedEnvironment m).2 (by decide) ?_ _⟩
  intro work retained published
  exact absurd published (of_decide_eq_true (abandoned work retained))

end Eredu.Scheduling
