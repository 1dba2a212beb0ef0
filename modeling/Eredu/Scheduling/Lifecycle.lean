import Eredu.Scheduling.Runs

/-!
# The lifecycle table

The lifecycle of a transition says which container holds it, and once nobody
holds it the lifecycle is final for as long as its request identity is kept.
-/

namespace Eredu.Scheduling

open Std Ledger List

variable {Ω W S B O : Type} {request : RequestId}

namespace Ledger

variable {ledger after : Ledger W S B O} {permits : S → Bool} {id : WorkId}

/-- The transition was issued and has left every container. -/
def Departed (ledger : Ledger W S B O) (id : WorkId) : Prop :=
  ledger.Issued id ∧ ¬ ledger.Holds id

theorem not_holds (unheld : ¬ ledger.Holds id) (queued : after.InQueue id → ledger.InQueue id)
    (prepared : after.InPrepared id → ledger.InPrepared id)
    (flying : after.InFlight id → ledger.InFlight id) : ¬ after.Holds id :=
  fun holds => unheld (holds.imp queued (Or.imp prepared flying))

theorem Sound.issued_of_holds (sound : ledger.Sound) (holds : ledger.Holds id) :
    ledger.Issued id := by
  rcases holds with ⟨entry, active, work, held, rfl⟩ | ⟨work, held, rfl⟩ | ⟨work, held, rfl⟩
  · exact .inl ⟨entry, active, (sound.queueOwned _ entry active work held).2⟩
  · exact .inl (sound.preparedActive work held)
  · exact sound.flightIssued work held

section

variable (sound : ledger.Sound)
include sound

section

variable (move : Transition permits ledger after)
include move

theorem Transition.issued (issued : ledger.Issued id) : after.Issued id := by
  cases move with
  | register request state settled inactive fresh room =>
    rcases issued with ⟨entry, active, bound⟩ | ended
    · refine .inl ⟨entry, ?_, bound⟩
      rw [lookup_insert, if_neg, active]
      rintro same
      rw [same, inactive] at active
      cases active
    · exact .inr ended
  | access request entry state settled idle active =>
    exact issued.insert active rfl rfl (UInt64.le_refl _)
  | enqueue request entry work lifecycle settled active room representable marked =>
    refine issued.insert active rfl rfl ?_
    rw [UInt64.le_iff_toNat_le, toNat_ofNat_u64 representable]
    omega
  | rotate | submit | refuse | detach | settle | free | condemn | attach => exact issued
  | prepare request rest entry queued pending prepared settled front active
  | reject request rest entry queued pending settled front active
  | commit left right work entry state success taken publishes active =>
    exact issued.insert active rfl rfl (UInt64.le_refl _)
  | close closed closes => exact closes.issued sound.toDirectory issued

/-- Only a submission puts anything in flight. -/
theorem Transition.flight_or_prepared
    (flies : after.InFlight id) : ledger.InFlight id ∨ ledger.InPrepared id := by
  obtain ⟨work, held, rfl⟩ := flies
  cases move with
  | register | access | enqueue | rotate | prepare | reject | refuse => exact .inl ⟨work, held, rfl⟩
  | submit prepared rest added settled front room same publishes =>
    simp only [inFlight, settled, append_nil, mem_append, mem_singleton] at held
    rcases held with earlier | rfl
    · exact .inl ⟨work, mem_append_left _ earlier, rfl⟩
    · exact .inr ⟨prepared, by simp [front], same.symm⟩
  | close closed closes =>
    obtain ⟨now, submitted⟩ := closes.submitted
    simp only [inFlight, submitted, closes.outside, mem_append, mem_map] at held
    rcases held with ⟨original, held, rfl⟩ | held
    · exact .inl ⟨original, mem_append_left _ held, (abandonIf_id closed now original).symm⟩
    · exact .inl ⟨work, mem_append_right _ held, rfl⟩
  | detach settled => exact .inl ⟨work, mem_append_left _ (by simpa [inFlight] using held), rfl⟩
  | settle left right settled stage taken | free left right settled cancelledAt taken
  | commit left right settled entry state success taken =>
    exact .inl ⟨work, ((sound.mem_inFlight_take taken work).mp held).1, rfl⟩
  | condemn left right condemned taken =>
    simp only [inFlight, mem_append, mem_cons] at held
    rcases held with held | held | rfl | held
    · exact .inl ⟨work, mem_append_left _ held, rfl⟩
    · exact .inl ⟨work, mem_append_right _ (by simp [taken, held]), rfl⟩
    · exact .inl ⟨condemned, mem_append_right _ (by simp [taken]), rfl⟩
    · exact .inl ⟨work, mem_append_right _ (by simp [taken, held]), rfl⟩
  | attach now lifecycle taken marked =>
    simp only [inFlight, append_nil, mem_map] at held
    obtain ⟨original, held, rfl⟩ := held
    exact .inl ⟨original, mem_append_right _ held, (abandonIf_id _ now original).symm⟩

theorem Transition.lifecycle_eq
    (departed : ledger.Departed id) : after.lifecycle id = ledger.lifecycle id := by
  obtain ⟨issued, unheld⟩ := departed
  simp only [Holds, not_or] at unheld
  obtain ⟨unqueued, unprepared, landed⟩ := unheld
  -- Entries outside the scheduler are still in flight.
  have different : ∀ {left right work}, ledger.outside = left ++ work :: right → id ≠ work.id := by
    rintro left right work taken rfl
    exact landed ⟨work, mem_append_right _ (by simp [taken]), rfl⟩
  cases move with
  | register | access | rotate | detach | free => rfl
  | enqueue request entry work lifecycle settled active room representable marked =>
    -- The batch has sequence numbers that were not issued before.
    have fresh : id ∉ (batchEntries request entry.next.toNat work).map (·.id) := by
      intro held
      obtain ⟨queued, member, rfl⟩ := mem_map.mp held
      obtain ⟨owner, later, -⟩ := mem_batchEntries representable member
      rcases issued with ⟨known, found, bound⟩ | ended
      · rw [owner, active, Option.some.injEq] at found
        subst found
        exact absurd (UInt64.lt_iff_toNat_lt.mp bound) (by omega)
      · rw [owner] at ended
        exact ended (sound.exclusive request (by simp [active]))
    simp only [marked, if_neg fresh]
  | prepare request rest entry queued pending prepared settled front active queue
  | reject request rest entry queued pending settled front active queue =>
    refine Function.update_of_ne ?_ _ _
    rintro rfl
    exact unqueued (sound.inQueue_head active queue).2
  | submit prepared rest work settled front | refuse prepared rest settled front =>
    refine Function.update_of_ne ?_ _ _
    rintro rfl
    exact unprepared ⟨prepared, by simp [front], rfl⟩
  | close closed closes =>
    exact closes.lifecycle id fun _ =>
      ⟨unqueued, unprepared, fun work held _ same => landed ⟨work, mem_append_left _ held, same⟩⟩
  | settle left right work stage taken | condemn left right work taken
  | commit left right work entry state success taken =>
    exact Function.update_of_ne (different taken) _ _
  | attach now lifecycle taken marked =>
    simp only [marked]
    rw [if_neg]
    rintro ⟨work, held, same, -⟩
    exact landed ⟨work, mem_append_right _ held, same⟩

theorem Transition.departed (departed : ledger.Departed id) :
    after.Departed id ∧ after.lifecycle id = ledger.lifecycle id := by
  have kept := move.lifecycle_eq sound departed
  have staged := sound.staged id
  have staged' := (sound.transition move).staged id
  refine ⟨⟨move.issued sound departed.1, ?_⟩, kept⟩
  refine not_holds departed.2 (fun holds => ?_) (fun holds => ?_) fun holds => ?_
  · rwa [← staged'.queued, kept, staged.queued] at holds
  · rwa [← staged'.prepared, kept, staged.prepared] at holds
  · refine (move.flight_or_prepared sound holds).resolve_right fun prepared => ?_
    exact departed.2 (.inr (.inl prepared))

end

end

theorem Reaches.kept {P : Ledger W S B O → Prop} (sound : ledger.Sound)
    (moves : ∀ {before after : Ledger W S B O}, before.Sound → Transition permits before after →
      P before → P after) (reaches : Reaches permits ledger after) (holds : P ledger) :
    P after := by
  induction reaches with
  | refl => exact holds
  | tail earlier move ih => exact moves (sound.reaches earlier) move ih

theorem Frees.issued (frees : Frees request ledger after)
    (other : id.request ≠ request) (issued : ledger.Issued id) : after.Issued id := by
  cases frees with
  | release entry requests settled active drained idle erased =>
    refine issued.imp_left fun ⟨known, found, bound⟩ => ⟨known, ?_, bound⟩
    rw [erased, if_neg other, found]
  | forget settled ended quiet =>
    refine issued.imp_right fun known => ?_
    exact (Function.update_of_ne other none ledger.terminal).trans_ne known

theorem Frees.departed (frees : Frees request ledger after)
    (other : id.request ≠ request) (departed : ledger.Departed id) :
    after.Departed id ∧ after.lifecycle id = ledger.lifecycle id := by
  refine ⟨⟨frees.issued other departed.1, ?_⟩, by cases frees <;> rfl⟩
  cases frees with
  | release entry requests settled active drained idle erased =>
    refine not_holds departed.2 (fun queues => ?_) (fun holds => holds) fun holds => holds
    obtain ⟨known, found, queue⟩ := queues
    rw [erased, if_neg other] at found
    exact ⟨known, found, queue⟩
  | forget settled ended quiet => exact departed.2

end Ledger

section Runs

variable (env : Environment Ω W S B O)
variable {m : Machine Ω W S B O} {id : WorkId}

/-- What every move keeps, and every release of another request, is kept until the request is
given up. -/
theorem run_kept {P : Ledger W S B O → Prop}
    (moves : ∀ {before after : Ledger W S B O}, before.Sound →
      Transition env.permitsParallelBranches before after → P before → P after)
    (frees : ∀ {other : RequestId} {before after : Ledger W S B O}, request ≠ other →
      Frees other before after → P before → P after)
    (reached : Reachable env m) (commands : List (Command Ω W S))
    (keeps : Keeps env request m commands) (holds : P (m.ledger [])) :
    P ((run env m commands).ledger []) := by
  induction commands generalizing m with
  | nil => exact holds
  | cons command rest ih =>
    refine ih (reached.step command) keeps.2 ?_
    rcases step_moves env command (reached.sound env) with reaches | ⟨other, givesUp, freed⟩
    · exact Reaches.kept (reached.sound env) moves reaches holds
    · refine frees ?_ freed holds
      rintro rfl
      exact keeps.1 givesUp

structure LifecycleAgrees (s : Scheduler W S B O) (id : WorkId) : Prop where
  queued : id ∈ s.queuedIds ↔ s.lifecycle[id]? = some .queued
  prepared : id ∈ s.prepared.map (·.id) ↔ s.lifecycle[id]? = some .prepared
  submitted : (∃ work ∈ s.submitted, work.id = id ∧ work.disposition = .publish) ↔
    s.lifecycle[id]? = some .submitted
  abandoned : ∀ work ∈ s.submitted, work.id = id →
    ∀ since, work.disposition = .abandon since → s.lifecycle[id]? = some .abandoned
  failed : ∀ work ∈ s.submitted, work.id = id → work.disposition = .fail →
    s.lifecycle[id]? = some .failed
  departed : id ∉ s.heldIds → ∀ stage, s.lifecycle[id]? = some stage →
    stage = .committed ∨ stage = .abandoned ∨ stage = .failed
  publishes : ∀ work ∈ s.submitted, work.id = id → work.disposition = .publish →
    id.request ∈ s.requests

theorem lifecycleAgrees (sound : (m.ledger []).Sound) : LifecycleAgrees m.scheduler id := by
  have staged := sound.staged id
  have flight : ∀ work ∈ m.scheduler.submitted, work.id = id →
      m.scheduler.lifecycle[id]? = some work.disposition.lifecycle :=
    fun work held same => staged.flight work (mem_append_left _ held) same
  refine ⟨?_, ?_, ⟨?_, ?_⟩, ?_, ?_, ?_, ?_⟩
  · exact (mem_queuedIds sound id).trans staged.queued.symm
  · exact mem_map.trans staged.prepared.symm
  · rintro ⟨work, held, same, publishes⟩
    rw [flight work held same, publishes]
    rfl
  · intro stage
    obtain ⟨work, held, same⟩ := staged.submitted stage
    have held : work ∈ m.scheduler.submitted := by simpa [inFlight, Machine.ledger] using held
    refine ⟨work, held, same, ?_⟩
    have kept := flight work held same
    rw [show m.scheduler.lifecycle[id]? = some .submitted from stage] at kept
    cases disposition : work.disposition <;> simp [disposition, Disposition.lifecycle] at kept ⊢
  · intro work held same since abandons
    rw [flight work held same, abandons]
    rfl
  · intro work held same fails
    rw [flight work held same, fails]
    rfl
  · intro unheld stage kept
    rw [mem_heldIds sound, Holds, not_or, not_or] at unheld
    have kept : (m.ledger []).lifecycle id = some stage := kept
    have unqueued := mt staged.queued.mp unheld.1
    have unprepared := mt staged.prepared.mp unheld.2.1
    have unsubmitted := mt staged.submitted unheld.2.2
    have settling := staged.settling
    cases stage <;> simp_all
  · rintro work held rfl publishes
    simpa [Machine.ledger] using sound.publishActive work held publishes

/-- The lifecycle table agrees with ownership at every reachable machine, and an item that was held
and has left keeps its lifecycle until its request identity is given up. -/
theorem lifecycle_agrees_with_ownership (reachable : Reachable env m) (id : WorkId) :
    LifecycleAgrees m.scheduler id ∧ ∀ earlier later : List (Command Ω W S),
        id ∈ m.scheduler.heldIds → id ∉ (run env m earlier).scheduler.heldIds →
        Keeps env id.request m (earlier ++ later) →
        (run env m (earlier ++ later)).scheduler.lifecycle[id]? =
            (run env m earlier).scheduler.lifecycle[id]? ∧
          id ∉ (run env m (earlier ++ later)).scheduler.heldIds := by
  have sound := reachable.sound env
  refine ⟨lifecycleAgrees sound, fun earlier later holds left keeps => ?_⟩
  rw [keeps_append] at keeps
  have reached := reachable.run env earlier
  have issued := run_kept env (fun sound move => move.issued sound)
    (fun other freed => freed.issued other) reachable earlier keeps.1
    (sound.issued_of_holds ((mem_heldIds sound id).mp holds))
  have unheld := mt (mem_heldIds (reached.sound env) id).mpr left
  obtain ⟨departed, same⟩ := run_kept env
    (P := fun ledger => ledger.Departed id ∧
      ledger.lifecycle id = (run env m earlier).scheduler.lifecycle[id]?)
    (fun sound move before => (move.departed sound before.1).imp_right (·.trans before.2))
    (fun other freed before => (freed.departed other before.1).imp_right (·.trans before.2))
    reached later keeps.2 ⟨⟨issued, unheld⟩, rfl⟩
  rw [run_append]
  exact ⟨same, mt (mem_heldIds ((reached.run env later).sound env) id).mp departed.2⟩

theorem lifecycle_agrees_with_ownership_counting :
    (run countingEnvironment (run countingEnvironment countingStart countingRun)
        ([.pollCompletions 0] ++ [.runLocalTurn 1, .forgetTerminal ⟨1⟩])).scheduler.lifecycle[
          (⟨⟨0⟩, 0⟩ : WorkId)]? =
      (run countingEnvironment (run countingEnvironment countingStart countingRun)
        [.pollCompletions 0]).scheduler.lifecycle[(⟨⟨0⟩, 0⟩ : WorkId)]? :=
  ((lifecycle_agrees_with_ownership countingEnvironment
    (countingStart_reachable.run countingEnvironment countingRun) ⟨⟨0⟩, 0⟩).2
    [.pollCompletions 0] [.runLocalTurn 1, .forgetTerminal ⟨1⟩] (by decide) (by decide)
    (by simp [Keeps, GivesUp, Command.givesUp])).1

end Runs

end Eredu.Scheduling
