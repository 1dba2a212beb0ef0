import Eredu.Scheduling.Serializability

/-!
# Delivery of committed output

A call delivers its committed output in the progress it returns. The work that
is published is recorded in the history, so nothing is lost exactly when the
deliveries of a run list the published work. A turn that stops after its opening
poll returns no progress: what that poll committed is delivered to nobody.
-/

namespace Eredu.Scheduling

open Std Ledger Effect List Except Function Scheduler

variable {Ω W S B O : Type} {request : RequestId}

namespace Ledger

variable {ledger after : Ledger W S B O} {permits : S → Bool}

def Recorded (ledger : Ledger W S B O) : Prop :=
  ∀ id, ledger.lifecycle id = some .committed → id ∈ publishedIds ledger.history

theorem mem_publishedIds {id : WorkId} {history : List (Event S)} :
    id ∈ publishedIds history ↔ ∃ event ∈ history, event.published = some id := by
  simp [publishedIds]

theorem Recorded.mono (hr : ledger.Recorded) (hh : ledger.history <:+ after.history)
    (hl : ∀ id, after.lifecycle id = some .committed →
      ledger.lifecycle id = some .committed) : after.Recorded := by
  intro id hc
  obtain ⟨event, hli, hp⟩ := mem_publishedIds.mp (hr id (hl id hc))
  exact mem_publishedIds.mpr ⟨event, hh.subset hli, hp⟩

theorem committed_of_update {lifecycle : WorkId → Option WorkLifecycle} {id other : WorkId}
    {stage : WorkLifecycle} (hd : stage ≠ .committed)
    (hc : update lifecycle id (some stage) other = some .committed) :
    lifecycle other = some .committed := by
  rw [update_apply] at hc
  split at hc
  · exact absurd (Option.some.inj hc) hd
  · exact hc

theorem Recorded.transition (hr : ledger.Recorded) (hs : Transition permits ledger after) :
    after.Recorded := by
  have hg := hs.history_suffix
  cases hs with
  | register | access | rotate | detach | free => exact hr.mono hg fun _ => id
  | prepare | reject | submit | refuse | condemn =>
    exact hr.mono hg fun _ => committed_of_update (by simp)
  | settle left right work stage hta hf =>
    refine hr.mono hg fun _ => committed_of_update ?_
    rcases hf with rfl | rfl <;> simp
  | close closed hcl =>
    refine hr.mono hg fun id hc => ?_
    by_cases ht : closed id.request = true ∧ (ledger.InQueue id ∨ ledger.InPrepared id ∨
        ∃ work ∈ ledger.submitted, work.disposition = .publish ∧ work.id = id)
    · obtain ⟨he, hq | hpr | ⟨work, hl, hp, rfl⟩⟩ := ht
      · rcases hcl.discarded id he (.inl hq) with stage | stage <;>
          rw [stage] at hc <;> cases hc
      · rcases hcl.discarded id he (.inr hpr) with stage | stage <;>
          rw [stage] at hc <;> cases hc
      · rw [hcl.abandoned work hl he hp] at hc
        cases hc
    · rwa [hcl.lifecycle id fun he => ?_] at hc
      simp only [not_and, not_or, not_exists] at ht
      exact ⟨(ht he).1, (ht he).2.1, (ht he).2.2⟩
  | commit left right work entry state success hta hp ha =>
    cases success with
    | false => exact hr.mono hg fun _ => committed_of_update (by simp)
    | true =>
      intro id hc
      by_cases hsa : id = work.id
      · subst hsa
        exact mem_publishedIds.mpr ⟨_, mem_cons_self, rfl⟩
      · have hea : ledger.lifecycle id = some .committed :=
          (update_of_ne hsa _ _).symm.trans hc
        obtain ⟨event, hl, hpu⟩ := mem_publishedIds.mp (hr id hea)
        exact mem_publishedIds.mpr ⟨event, mem_cons_of_mem _ hl, hpu⟩
  | enqueue request entry work lifecycle hse ha hro hre hm | attach now lifecycle hta hm =>
    refine hr.mono hg fun id hc => ?_
    simp only [hm] at hc
    split at hc
    · cases hc
    · exact hc

theorem Recorded.reaches (hr : ledger.Recorded) (hm : Reaches permits ledger after) :
    after.Recorded := by
  induction hm with
  | refl => exact hr
  | tail _ hs ih => exact ih.transition hs

theorem Recorded.frees (hr : ledger.Recorded)
    (hf : Frees request ledger after) : after.Recorded := by
  cases hf <;> exact hr

end Ledger

variable (env : Environment Ω W S B O)
variable {m : Machine Ω W S B O}

theorem Reachable.recorded (hr : Reachable env m) : (m.ledger []).Recorded := by
  induction hr with
  | new world hcr =>
    have he := new_eq hcr
    subst he
    intro id hc
    simp [Machine.ledger] at hc
  | step hre command ih =>
    rcases step_moves env command hre.sound with hm | ⟨_, _, hf⟩
    · exact ih.reaches hm
    · exact ih.frees hf

def deliveredBy : Except (Fault SchedulerError) (SchedulerProgress W O) → List WorkId
  | .ok progress => progress.committed.map (·.1)
  | .error _ => []

def delivered (m : Machine Ω W S B O) (command : Command Ω W S) : List WorkId :=
  deliveredBy ((perform env command).outcome m).1

def deliveries : Machine Ω W S B O → List (Command Ω W S) →
    List WorkId
  | _, [] => []
  | m, command :: rest => delivered env m command ++ deliveries (step env m command) rest

def PhasesSecure (opening closing : Op Ω W S B O (SchedulerProgress W O))
    (m : Machine Ω W S B O) : Prop :=
  opening.Yields m
    (fun progress after => progress.committed = [] ∨ (closing.outcome after).1.isOk = true)
    (fun _ _ => True)

/-- A turn is secure where its opening poll commits nothing or its later phases succeed. Every other
call is. -/
def Command.Secure (m : Machine Ω W S B O) : Command Ω W S → Prop
  | .runLocalTurn now => PhasesSecure (localOpening env now) (localClosing env now) m
  | .runDistributedTurn protocol now =>
      PhasesSecure (distributedOpening env protocol now) (distributedClosing env protocol now) m
  | _ => True

def SecureRun : Machine Ω W S B O → List (Command Ω W S) → Prop
  | _, [] => True
  | m, command :: rest => command.Secure env m ∧ SecureRun (step env m command) rest

/-- Beside what it delivers, a method publishes `lost`. -/
def Loses (method : Op Ω W S B O (SchedulerProgress W O))
    (m : Machine Ω W S B O) (lost : List WorkId) : Prop :=
  publishedIds (method.final m).history =
    publishedIds m.history ++ (deliveredBy (method.outcome m).1 ++ lost)

theorem Loses.of_yields {method : Op Ω W S B O (SchedulerProgress W O)} (hp : method.Yields m
      (fun progress after =>
        publishedIds after.history = publishedIds m.history ++ progress.committed.map (·.1))
      (fun _ after => publishedIds after.history = publishedIds m.history)) : Loses method m [] := by
  unfold Yields at hp
  unfold Loses final
  generalize method.outcome m = result at hp ⊢
  rcases result with ⟨fault | progress, after⟩
  · simpa [deliveredBy] using hp
  · simpa [deliveredBy] using hp

theorem Loses.of_follows {α : Type} {method : Op Ω W S B O α}
    (hf : Guarantee (Follows env) method) :
    Loses (do let _ ← method; pure {} : Op Ω W S B O _) m [] := by
  refine .of_yields ?_
  rw [yields_bind]
  refine (hf m).mono (fun _ _ hm => hm.published) fun _ _ hm => ?_
  exact hm.published.trans (append_nil _)

theorem Loses.of_frees {α : Type} {method : Op Ω W S B O α}
    (hf : method.Yields m (fun _ after => Frees request (m.ledger []) (after.ledger []))
      (fun _ after => after = m)) : Loses (do let _ ← method; pure {} : Op Ω W S B O _) m [] := by
  refine .of_yields ?_
  rw [yields_bind]
  refine hf.mono (fun _ after hfr => ?_) fun _ _ hs => by rw [hs]
  have hh : after.history = m.history := hfr.history
  simp [hh]

theorem Loses.of_phases {opening closing : Op Ω W S B O (SchedulerProgress W O)}
    (hop : Reports env opening) (hcl : Reports env closing) :
    ∃ lost, Loses (inTwoPhases opening closing) m lost ∧
      (lost = [] ↔ PhasesSecure opening closing m) := by
  have ho := hop m
  unfold Yields at ho
  unfold Loses PhasesSecure Yields final inTwoPhases
  simp only [outcome_bind]
  generalize opening.outcome m = result at ho ⊢
  rcases result with ⟨fault | progress, middle⟩
  · exact ⟨[], by simpa [deliveredBy] using ho.published, by simp⟩
  · have hc := hcl middle
    unfold Yields at hc
    dsimp only at hc ho ⊢
    generalize closing.outcome middle = result at hc ⊢
    rcases result with ⟨fault | later, after⟩
    · refine ⟨progress.committed.map (·.1), ?_, ?_⟩
      · exact (ho.trans env hc).published.trans (by simp [deliveredBy])
      · simp [Except.toBool]
    · refine ⟨[], ?_, by simp [Except.toBool]⟩
      exact (ho.trans env hc).published.trans (by simp [deliveredBy])

theorem step_loses (command : Command Ω W S) (m : Machine Ω W S B O) :
    ∃ lost, Loses (perform env command) m lost ∧ (lost = [] ↔ command.Secure env m) := by
  have hs : ∀ {command : Command Ω W S}, Loses (perform env command) m [] →
      command.Secure env m → ∃ lost, Loses (perform env command) m lost ∧
        (lost = [] ↔ command.Secure env m) :=
    fun hl hs => ⟨[], hl, by simpa using hs⟩
  cases command with
  | register request state => exact hs (.of_follows env (register_follows env request state)) trivial
  | requestStateMut request access =>
    exact hs (.of_follows env (requestStateMut_follows env request access)) trivial
  | enqueueBatch request work =>
    exact hs (.of_follows env (enqueueBatchWithDeadlines_follows env request work)) trivial
  | prepareBounded limit now =>
    exact hs (.of_follows env ((follows_advances env).prepareBounded limit now)) trivial
  | submitPrepared now => exact hs (.of_follows env ((follows_advances env).submitPrepared now)) trivial
  | pollCompletions now =>
    exact hs (.of_yields (pollCompletions_delivers env now m).published) trivial
  | runLocalTurn now =>
    rw [perform, runLocalTurn_eq]
    exact Loses.of_phases env (localOpening_reports env now) (localClosing_reports env now)
  | runDistributedTurn protocol now =>
    rw [perform, runDistributedTurn_eq]
    exact Loses.of_phases env (distributedOpening_reports env protocol now)
      (distributedClosing_reports env protocol now)
  | cancel request now =>
    exact hs (.of_follows env ((follows_interrupts env).cancelInternal request .explicit now)) trivial
  | cancelDistributed protocol request now =>
    exact hs (.of_follows env ((follows_interrupts env).cancelDistributed protocol request now)) trivial
  | finish request => exact hs (.of_follows env (finish_follows env request)) trivial
  | release request => exact hs (.of_frees (release_frees request m)) trivial
  | forgetTerminal request => exact hs (.of_frees (forgetTerminal_frees request m)) trivial
  | outside change => exact hs (.of_yields (append_nil _).symm) trivial

variable (m) (commands : List (Command Ω W S))

theorem run_published (hs : SecureRun env m commands) :
    publishedIds (run env m commands).history =
      publishedIds m.history ++ deliveries env m commands := by
  induction commands generalizing m with
  | nil => exact (append_nil _).symm
  | cons command rest ih =>
    obtain ⟨lost, hl, iff⟩ := step_loses env command m
    rw [iff.mpr hs.1, Loses, append_nil] at hl
    have hla := ih (step env m command) hs.2
    rw [step, hl, append_assoc] at hla
    exact hla

theorem run_lost :
    ∃ lost, (publishedIds (run env m commands).history).length =
        (publishedIds m.history).length + (deliveries env m commands).length + lost ∧
      (lost = 0 ↔ SecureRun env m commands) := by
  induction commands generalizing m with
  | nil => exact ⟨0, rfl, by simp [SecureRun]⟩
  | cons command rest ih =>
    obtain ⟨first, hlo, hh⟩ := step_loses env command m
    obtain ⟨others, hl, hla⟩ := ih (step env m command)
    refine ⟨first.length + others, ?_, ?_⟩
    · have hc := congrArg length hlo
      simp only [length_append] at hc
      simp only [deliveries, delivered, length_append]
      exact hl.trans (by simp only [step]; omega)
    · rw [Nat.add_eq_zero_iff, length_eq_zero_iff, hh, hla]
      rfl

/-- Committed output is delivered, each publication once and in order, exactly in the runs in which
no turn stops after its opening poll committed something. In those runs nothing else is committed. -/
theorem committed_output_delivered {limits : SchedulerLimits}
    {scheduler : Scheduler W S B O} (world : Ω)
    (created : new limits = .ok scheduler) (commands : List (Command Ω W S)) :
    (publishedIds (run env { scheduler, world } commands).history =
        deliveries env { scheduler, world } commands ↔
      SecureRun env { scheduler, world } commands) ∧
      (SecureRun env { scheduler, world } commands → ∀ id,
        (run env { scheduler, world } commands).scheduler.lifecycle[id]? = some .committed →
        id ∈ deliveries env { scheduler, world } commands) := by
  have hd : SecureRun env { scheduler, world } commands →
      publishedIds (run env { scheduler, world } commands).history =
        deliveries env { scheduler, world } commands :=
    run_published env { scheduler, world } commands
  refine ⟨⟨fun hsa => ?_, hd⟩, fun hs id hc => ?_⟩
  · obtain ⟨lost, hle, iff⟩ := run_lost env { scheduler, world } commands
    rw [hsa] at hle
    exact iff.mp (by omega)
  · have hl : Reachable env { scheduler, world } := .new world created
    have hr := (hl.run env commands).recorded
    exact hd hs ▸ hr id hc

/-- The submitted item is polled before the turn that fails. -/
def countingDrain : List (Command Unit Bool Nat) :=
  countingRun ++ [.pollCompletions 0, .runLocalTurn 1]

theorem committed_output_delivered_counting :
    SecureRun countingEnvironment countingStart countingDrain :=
  (committed_output_delivered countingEnvironment ()
    (show new countingStart.scheduler.limits = .ok countingStart.scheduler from rfl)
    countingDrain).1.mp (by decide)

/-- The turn commits the first request's output, then fails to encode the second request's work, and
returns the error alone. The item has left the scheduler, so no later call delivers the output. -/
theorem local_turn_loses_output :
    (run countingEnvironment countingStart (countingRun ++ [.runLocalTurn 0])).scheduler.lifecycle[
        (⟨⟨0⟩, 0⟩ : WorkId)]? = some .committed ∧
      publishedIds (run countingEnvironment countingStart
        (countingRun ++ [.runLocalTurn 0])).history = [⟨⟨0⟩, 0⟩] ∧
      deliveries countingEnvironment countingStart (countingRun ++ [.runLocalTurn 0]) = [] := by
  decide

end Eredu.Scheduling
