import Eredu.Foundation.MapTotal
import Eredu.Residency.Plan

/-!
# Background prefetching

`residency/prefetch.rs`: a bounded queue of units to read ahead, the operations that
the backend has in flight, and cancellation by a generation that fences them.
-/

namespace Eredu.Residency

open Std List Word Nat

structure BackgroundPrefetchReport where
  submitted : Nat := 0
  coalesced : Nat := 0
  started : Nat := 0
  completed : Nat := 0
  cancelled : Nat := 0
  failed : Nat := 0
  queueCapacity : Nat
  peakQueueOccupancy : Nat := 0
  demandWaits : Nat := 0
  demandWaitDuration : Nat := 0
  readyBeforeDemand : Nat := 0
  evictedBeforeUse : Nat := 0

/-- The admitted operations that have come to an end. -/
def BackgroundPrefetchReport.settled (report : BackgroundPrefetchReport) : Nat :=
  report.completed + report.failed + report.cancelled

/-- An operation as it was admitted, with the cancellation generation of its admission. -/
@[ext] structure PrefetchWork where
  generation : Nat
  id : OffloadUnitId
  deriving DecidableEq, Repr

inductive PrefetchAdmission where
  | admitted (work : PrefetchWork)
  | coalesced
  | atCapacity

inductive PrefetchDemandResolution (ε : Type) where
  | ready
  | failed (error : ε)
  | unscheduled

inductive PrefetchCompletion where
  | published
  | failed
  | discarded

inductive PrefetchStateError where
  | zeroQueueCapacity
  | generationExhausted
  | workNotQueued (id : OffloadUnitId) (generation : Nat)
  | workNotInFlight (id : OffloadUnitId) (generation : Nat)
  | completionGenerationMismatch (id : OffloadUnitId) (expected actual : Nat)
  | demandStillPending (id : OffloadUnitId)
  | cancellationStillInFlight

/-- The longest `Duration`, in nanoseconds. -/
def longestDuration : Nat := 2 ^ 64 * 10 ^ 9 - 1

structure PrefetchExecutionState (ε : Type) where
  generation : Nat
  queueCapacity : Nat
  queue : List PrefetchWork
  queued : TreeSet OffloadUnitId
  inFlight : TreeMap OffloadUnitId Nat
  completed : TreeSet OffloadUnitId
  failures : TreeMap OffloadUnitId ε
  report : BackgroundPrefetchReport

namespace PrefetchExecutionState

variable {ε : Type} {s : PrefetchExecutionState ε}

def new (queueCapacity : Nat) : Except PrefetchStateError (PrefetchExecutionState ε) :=
  if queueCapacity = 0 then .error .zeroQueueCapacity
  else .ok ⟨0, queueCapacity, [], ∅, ∅, ∅, ∅, { queueCapacity }⟩

variable (s)

/-- A request that existing work or a resident copy satisfies. -/
def coalesce : PrefetchExecutionState ε × PrefetchAdmission :=
  ({ s with report.coalesced := saturatingAdd s.report.coalesced 1 }, .coalesced)

variable (id : OffloadUnitId) (resident : Bool)

def forgetEvicted : PrefetchExecutionState ε :=
  if s.completed.contains id && !resident then
    { s with
      completed := s.completed.erase id
      report.evictedBeforeUse := saturatingAdd s.report.evictedBeforeUse 1 }
  else s

def admitUnit : PrefetchExecutionState ε × PrefetchAdmission :=
  if s.queued.contains id || s.inFlight.contains id then s.coalesce
  else
    let s := s.forgetEvicted id resident
    if resident then
      { s with failures := s.failures.erase id, completed := s.completed.insert id }.coalesce
    else if s.queue.length = s.queueCapacity then (s, .atCapacity)
    else
      let work := ⟨s.generation, id⟩
      let queue := s.queue ++ [work]
      ({ s with
          failures := s.failures.erase id
          queued := s.queued.insert id
          queue
          report.submitted := saturatingAdd s.report.submitted 1
          report.peakQueueOccupancy := max s.report.peakQueueOccupancy queue.length },
        .admitted work)

def rollbackAdmission (work : PrefetchWork) :
    PrefetchExecutionState ε × Except PrefetchStateError Unit :=
  if work ∈ s.queue then
    ({ s with
        queue := s.queue.erase work
        queued := s.queued.erase work.id
        report.submitted := s.report.submitted - 1 }, .ok ())
  else (s, .error (.workNotQueued work.id work.generation))

def beginNext : PrefetchExecutionState ε × Option PrefetchWork :=
  match s.queue with
  | [] => (s, none)
  | work :: queue =>
      ({ s with
          queue
          queued := s.queued.erase work.id
          inFlight := s.inFlight.insert work.id work.generation
          report.started := saturatingAdd s.report.started 1 }, some work)

def complete (work : PrefetchWork) (result : Except ε Unit) :
    PrefetchExecutionState ε × Except PrefetchStateError PrefetchCompletion :=
  match s.inFlight[work.id]? with
  | none => (s, .error (.workNotInFlight work.id work.generation))
  | some active =>
      if active ≠ work.generation then
        (s, .error (.completionGenerationMismatch work.id active work.generation))
      else
        let s := { s with inFlight := s.inFlight.erase work.id }
        if work.generation ≠ s.generation then
          ({ s with report.cancelled := saturatingAdd s.report.cancelled 1 }, .ok .discarded)
        else
          match result with
          | .ok () =>
              ({ s with
                  completed := s.completed.insert work.id
                  report.completed := saturatingAdd s.report.completed 1 }, .ok .published)
          | .error error =>
              ({ s with
                  failures := s.failures.insert work.id error
                  report.failed := saturatingAdd s.report.failed 1 }, .ok .failed)

def isPending : Bool :=
  s.queued.contains id || s.inFlight.contains id

def recordWait : Option Nat → PrefetchExecutionState ε
  | none => s
  | some duration =>
      { s with
        report.demandWaits := saturatingAdd s.report.demandWaits 1
        report.demandWaitDuration := min (s.report.demandWaitDuration + duration) longestDuration }

def resolveDemand (waited : Option Nat) :
    PrefetchExecutionState ε × Except PrefetchStateError (PrefetchDemandResolution ε) :=
  if s.isPending id then (s, .error (.demandStillPending id))
  else
    let s := s.recordWait waited
    match s.failures[id]? with
    | some error => ({ s with failures := s.failures.erase id }, .ok (.failed error))
    | none =>
        if s.completed.contains id then
          ({ s with
              completed := s.completed.erase id
              report.readyBeforeDemand := saturatingAdd s.report.readyBeforeDemand 1 },
            .ok .ready)
        else (s, .ok .unscheduled)

def cancelAll : PrefetchExecutionState ε × Except PrefetchStateError Unit :=
  match checkedAdd s.generation 1 with
  | none => (s, .error .generationExhausted)
  | some generation =>
      ({ s with
          generation
          report.cancelled := saturatingAdd s.report.cancelled s.queue.length
          queue := []
          queued := ∅ }, .ok ())

def isIdle : Bool := s.queue.isEmpty && s.inFlight.isEmpty

def finishCancellation :
    PrefetchExecutionState ε × Except PrefetchStateError (Option (OffloadUnitId × ε)) :=
  if !s.isIdle then (s, .error .cancellationStillInFlight)
  else ({ s with completed := ∅, failures := ∅ }, .ok s.failures.minEntry?)

end PrefetchExecutionState

/-! ## Runs

A run remembers every operation that was begun, whether a completion of it has been accepted and
whether a cancellation has followed its start. -/

structure PrefetchOperation where
  work : PrefetchWork
  finished : Bool
  fenced : Bool
  deriving DecidableEq, Repr

inductive PrefetchEvent (ε : Type) where
  | admitUnit (id : OffloadUnitId) (resident : Bool)
  | rollbackAdmission (work : PrefetchWork)
  | beginNext
  | complete (work : PrefetchWork) (result : Except ε Unit)
  | resolveDemand (id : OffloadUnitId) (waited : Option Nat)
  | cancelAll
  | finishCancellation

/-- `saturated` says that some step found the number of submissions at its maximum. -/
structure PrefetchRun (ε : Type) where
  state : PrefetchExecutionState ε
  operations : List PrefetchOperation
  saturated : Bool

namespace PrefetchRun

variable {ε : Type} {s : PrefetchExecutionState ε} {operations : List PrefetchOperation}

variable (s)

def apply : PrefetchEvent ε → PrefetchExecutionState ε
  | .admitUnit id resident => (s.admitUnit id resident).1
  | .rollbackAdmission work => (s.rollbackAdmission work).1
  | .beginNext => s.beginNext.1
  | .complete work result => (s.complete work result).1
  | .resolveDemand id waited => (s.resolveDemand id waited).1
  | .cancelAll => s.cancelAll.1
  | .finishCancellation => s.finishCancellation.1

def finish (work : PrefetchWork) (operation : PrefetchOperation) : PrefetchOperation :=
  if operation.work = work then { operation with finished := true } else operation

def record (operations : List PrefetchOperation) :
    PrefetchEvent ε → List PrefetchOperation
  | .beginNext => (s.beginNext.2.map fun work => ⟨work, false, false⟩).toList ++ operations
  | .complete work result =>
      if (s.complete work result).2.isOk then operations.map (finish work) else operations
  | .cancelAll =>
      if s.cancelAll.2.isOk then operations.map ({ · with fenced := true }) else operations
  | _ => operations

def step (r : PrefetchRun ε) (event : PrefetchEvent ε) : PrefetchRun ε :=
  ⟨apply r.state event, record r.state r.operations event,
    r.saturated || decide (maximum ≤ r.state.report.submitted)⟩

def run (events : List (PrefetchEvent ε)) : PrefetchRun ε :=
  events.foldl step ⟨s, [], false⟩

variable {s}

inductive Move (s : PrefetchExecutionState ε) (operations : List PrefetchOperation) :
    PrefetchExecutionState ε → List PrefetchOperation → Prop
  | unmoved (completed failures) (report : BackgroundPrefetchReport) :
      report.submitted = s.report.submitted → report.settled = s.report.settled →
      Move s operations { s with completed, failures, report } operations
  | admitted (id completed failures) (report : BackgroundPrefetchReport) :
      id ∉ s.queued → s.inFlight[id]? = none → s.queue.length ≠ s.queueCapacity →
      report.submitted = saturatingAdd s.report.submitted 1 →
      report.settled = s.report.settled →
      Move s operations
        { s with
          completed, failures, report
          queued := s.queued.insert id
          queue := s.queue ++ [⟨s.generation, id⟩] } operations
  | rolledBack (work) (report : BackgroundPrefetchReport) :
      work ∈ s.queue → report.submitted = s.report.submitted - 1 →
      report.settled = s.report.settled →
      Move s operations
        { s with report, queue := s.queue.erase work, queued := s.queued.erase work.id } operations
  | begun (work queue) (report : BackgroundPrefetchReport) :
      s.queue = work :: queue → report.submitted = s.report.submitted →
      report.settled = s.report.settled →
      Move s operations
        { s with
          queue, report
          queued := s.queued.erase work.id
          inFlight := s.inFlight.insert work.id work.generation }
        (⟨work, false, false⟩ :: operations)
  | finished (work completed failures) (report : BackgroundPrefetchReport) :
      s.inFlight[work.id]? = some work.generation → report.submitted = s.report.submitted →
      (s.report.settled < maximum → report.settled = s.report.settled + 1) →
      Move s operations
        { s with completed, failures, report, inFlight := s.inFlight.erase work.id }
        (operations.map (finish work))
  | cancelled (report : BackgroundPrefetchReport) :
      report.submitted = s.report.submitted →
      (s.report.settled + s.queue.length ≤ maximum →
        report.settled = s.report.settled + s.queue.length) →
      Move s operations
        { s with report, generation := s.generation + 1, queue := [], queued := ∅ }
        (operations.map ({ · with fenced := true }))

theorem move_refl : Move s operations s operations := .unmoved _ _ _ rfl rfl

variable {after : List PrefetchOperation} {t : PrefetchExecutionState ε}

theorem Move.queueCapacity (hm : Move s operations t after) :
    t.queueCapacity = s.queueCapacity := by
  cases hm <;> rfl

variable (s) (operations)

theorem admitUnit_move (id : OffloadUnitId) (resident : Bool) :
    Move s operations (s.admitUnit id resident).1 operations := by
  obtain ⟨completed, evicted, he⟩ : ∃ completed evicted, s.forgetEvicted id resident =
      { s with completed, report.evictedBeforeUse := evicted } := by
    unfold PrefetchExecutionState.forgetEvicted
    split
    · exact ⟨_, _, rfl⟩
    · exact ⟨_, _, rfl⟩
  unfold PrefetchExecutionState.admitUnit
  split
  · exact .unmoved _ _ _ rfl rfl
  rename_i hn
  rw [Bool.or_eq_true, not_or] at hn
  rw [he]
  dsimp only
  split
  · exact .unmoved _ _ _ rfl rfl
  split
  · exact .unmoved _ _ _ rfl rfl
  rename_i hc
  refine .admitted _ _ _ _ ?_ ?_ hc rfl rfl
  · simpa using hn.1
  · simpa using hn.2

theorem complete_move (work : PrefetchWork) (result : Except ε Unit) :
    Move s operations (s.complete work result).1 (record s operations (.complete work result)) := by
  simp only [record, PrefetchExecutionState.complete]
  split
  · exact move_refl
  rename_i active hf
  split
  · exact move_refl
  rename_i hg
  rw [not_not] at hg
  subst hg
  have hs : ∀ {count : Nat}, count ≤ s.report.settled → s.report.settled < maximum →
      saturatingAdd count 1 = count + 1 := by
    intro count hc hl
    unfold saturatingAdd
    omega
  simp only [BackgroundPrefetchReport.settled] at hs
  split <;> [skip; split]
  all_goals
    refine .finished _ _ _ _ hf rfl fun hl => ?_
    simp only [BackgroundPrefetchReport.settled]
    rw [hs (by omega) hl]
    omega

theorem resolveDemand_move (id : OffloadUnitId) (waited : Option Nat) :
    Move s operations (s.resolveDemand id waited).1 operations := by
  have hw : ∃ report : BackgroundPrefetchReport, s.recordWait waited = { s with report } ∧
      report.submitted = s.report.submitted ∧ report.settled = s.report.settled := by
    cases waited <;> exact ⟨_, rfl, rfl, rfl⟩
  obtain ⟨report, hw, hs, ht⟩ := hw
  unfold PrefetchExecutionState.resolveDemand
  split
  · exact move_refl
  rw [hw]
  dsimp only
  split
  · exact .unmoved _ _ _ hs ht
  split
  · exact .unmoved _ _ _ hs ht
  · exact .unmoved _ _ _ hs ht

theorem step_move
    (event : PrefetchEvent ε) : Move s operations (apply s event) (record s operations event) := by
  cases event with
  | admitUnit id resident => exact admitUnit_move s operations id resident
  | rollbackAdmission work =>
    simp only [apply, PrefetchExecutionState.rollbackAdmission]
    split
    · rename_i hm
      exact .rolledBack _ _ hm rfl rfl
    · exact move_refl
  | beginNext =>
    cases hq : s.queue with
    | nil =>
      simp only [apply, record, PrefetchExecutionState.beginNext, hq]
      exact move_refl
    | cons work queue =>
      simp only [apply, record, PrefetchExecutionState.beginNext, hq]
      exact .begun _ _ _ hq rfl rfl
  | complete work result => exact complete_move s operations work result
  | resolveDemand id waited => exact resolveDemand_move s operations id waited
  | cancelAll =>
    cases hg : checkedAdd s.generation 1 with
    | none =>
      simp only [apply, record, PrefetchExecutionState.cancelAll, hg]
      exact move_refl
    | some generation =>
      obtain ⟨rfl, -⟩ := checkedAdd_eq_some.mp hg
      simp only [apply, record, PrefetchExecutionState.cancelAll, hg]
      refine .cancelled _ rfl fun hl => ?_
      simp only [BackgroundPrefetchReport.settled, saturatingAdd] at hl ⊢
      omega
  | finishCancellation =>
    simp only [apply, record, PrefetchExecutionState.finishCancellation]
    split
    · exact move_refl
    · exact .unmoved _ _ _ rfl rfl

variable {s}

def unfinished : List PrefetchWork :=
  (operations.filter (!·.finished)).map (·.work)

/-- What the queue, the map of operations in flight and the operations begun say of each other. -/
structure Sound (s : PrefetchExecutionState ε) (operations : List PrefetchOperation) : Prop where
  bounded : s.queue.length ≤ s.queueCapacity
  queued : ∀ id, id ∈ s.queued ↔ id ∈ s.queue.map (·.id)
  distinct : (s.queue.map (·.id)).Nodup
  disjoint : ∀ id ∈ s.queue.map (·.id), s.inFlight[id]? = none
  current : ∀ work ∈ s.queue, work.generation = s.generation
  inFlight : ∀ work, s.inFlight[work.id]? = some work.generation ↔ work ∈ unfinished operations
  single : ((unfinished operations).map (·.id)).Nodup
  fenced : ∀ operation ∈ operations,
    operation.work.generation + operation.fenced.toNat ≤ s.generation

theorem unfinished_finish (work : PrefetchWork) (operations : List PrefetchOperation) :
    unfinished (operations.map (finish work)) =
      (unfinished operations).filter (fun other => decide (other ≠ work)) := by
  induction operations with
  | nil => rfl
  | cons operation rest ih =>
    unfold unfinished at ih ⊢
    by_cases hw : operation.work = work <;> cases hf : operation.finished <;>
      simp [finish, hw, hf, ih]

theorem unfinished_fence :
    unfinished (operations.map ({ · with fenced := true })) = unfinished operations := by
  simp [unfinished, filter_map, Function.comp_def]

variable {operations}

theorem map_id_erase {queue : List PrefetchWork} {work : PrefetchWork}
    (hd : (queue.map (·.id)).Nodup) (hw : work ∈ queue) :
    (queue.erase work).map (·.id) = (queue.map (·.id)).erase work.id := by
  induction queue with
  | nil => cases hw
  | cons first rest ih =>
    rw [map_cons, nodup_cons] at hd
    by_cases he : first = work
    · simp [he]
    have hr : work ∈ rest := (mem_cons.mp hw).resolve_left (Ne.symm he)
    have hi : first.id ≠ work.id := fun same => hd.1 (same ▸ mem_map_of_mem hr)
    rw [erase_cons_tail (by simpa using he), map_cons, map_cons,
      erase_cons_tail (by simpa using hi), ih hd.2 hr]

variable {completed : TreeSet OffloadUnitId} {failures : TreeMap OffloadUnitId ε}
  {report : BackgroundPrefetchReport}

theorem Sound.enqueue (sound : Sound s operations) {id : OffloadUnitId}
    (absent : id ∉ s.queued) (idle : s.inFlight[id]? = none)
    (room : s.queue.length ≠ s.queueCapacity) :
    Sound
      { s with
        completed, failures, report
        queued := s.queued.insert id
        queue := s.queue ++ [⟨s.generation, id⟩] } operations := by
  rw [sound.queued] at absent
  refine { sound with bounded := ?_, queued := ?_, distinct := ?_, disjoint := ?_, current := ?_ }
  · have bounded := sound.bounded
    simp only [length_append, length_singleton]
    omega
  · intro other
    rw [TreeSet.mem_insert, sound.queued, Std.compare_eq_iff_eq, map_append, mem_append]
    simp [or_comm, eq_comm]
  · rw [map_append]
    exact sound.distinct.append (nodup_singleton _) (by simpa using absent)
  · intro other waiting
    rw [map_append, mem_append, map_singleton, mem_singleton] at waiting
    obtain waiting | rfl := waiting
    · exact sound.disjoint other waiting
    · exact idle
  · intro work waiting
    obtain waiting | waiting := mem_append.mp waiting
    · exact sound.current work waiting
    · rw [mem_singleton.mp waiting]

theorem Sound.dequeue (sound : Sound s operations) {work : PrefetchWork}
    (waiting : work ∈ s.queue) :
    Sound { s with report, queue := s.queue.erase work, queued := s.queued.erase work.id }
      operations := by
  have ids := map_id_erase sound.distinct waiting
  refine { sound with bounded := ?_, queued := ?_, distinct := ?_, disjoint := ?_, current := ?_ }
  · exact (erase_sublist.length_le).trans sound.bounded
  · intro id
    rw [ids, sound.distinct.mem_erase_iff, ← sound.queued, TreeSet.mem_erase, ne_eq,
      Std.compare_eq_iff_eq]
    exact and_congr_left' (not_congr eq_comm)
  · rw [ids]
    exact sound.distinct.erase _
  · intro id left
    rw [ids] at left
    exact sound.disjoint id (mem_of_mem_erase left)
  · intro other left
    exact sound.current other (mem_of_mem_erase left)

theorem Sound.launch (sound : Sound s operations) {work : PrefetchWork}
    (taken : work.id ∉ s.queue.map (·.id)) (idle : s.inFlight[work.id]? = none)
    (current : work.generation ≤ s.generation) :
    Sound { s with inFlight := s.inFlight.insert work.id work.generation }
      (⟨work, false, false⟩ :: operations) := by
  refine { sound with disjoint := ?_, inFlight := ?_, single := ?_, fenced := ?_ }
  · intro id waiting
    rw [lookup_insert, if_neg fun same : id = work.id => taken (same ▸ waiting)]
    exact sound.disjoint id waiting
  · intro other
    rw [lookup_insert]
    change _ ↔ other ∈ work :: unfinished operations
    rw [mem_cons, ← sound.inFlight, PrefetchWork.ext_iff]
    split
    · rename_i same
      rw [same, idle]
      simp [eq_comm]
    · rename_i different
      simp [different]
  · refine nodup_cons.mpr ⟨fun active => ?_, sound.single⟩
    obtain ⟨other, running, (same : other.id = work.id)⟩ := mem_map.mp active
    have active := (sound.inFlight other).mpr running
    rw [same, idle] at active
    cases active
  · intro operation begun
    obtain rfl | begun := mem_cons.mp begun
    · exact current
    · exact sound.fenced operation begun

theorem Sound.finish (sound : Sound s operations) {work : PrefetchWork}
    (active : s.inFlight[work.id]? = some work.generation) :
    Sound { s with completed, failures, report, inFlight := s.inFlight.erase work.id }
      (operations.map (PrefetchRun.finish work)) := by
  refine { sound with disjoint := ?_, inFlight := ?_, single := ?_, fenced := ?_ }
  · intro id waiting
    rw [lookup_erase, sound.disjoint id waiting, ite_self]
  · intro other
    rw [lookup_erase, unfinished_finish, mem_filter, ← sound.inFlight, decide_eq_true_eq,
      ne_eq, PrefetchWork.ext_iff]
    split
    · rename_i same
      rw [same, active]
      simp [eq_comm]
    · rename_i different
      simp [different]
  · rw [unfinished_finish]
    exact sound.single.sublist (filter_sublist.map _)
  · intro operation begun
    obtain ⟨before, earlier, rfl⟩ := mem_map.mp begun
    unfold PrefetchRun.finish
    split <;> exact sound.fenced before earlier

theorem Sound.cancel (sound : Sound s operations) :
    Sound { s with report, generation := s.generation + 1, queue := [], queued := ∅ }
      (operations.map ({ · with fenced := true })) := by
  refine ⟨zero_le _, by simp, nodup_nil, by simp, by simp, ?_, ?_, ?_⟩
  · rw [unfinished_fence]
    exact sound.inFlight
  · rw [unfinished_fence]
    exact sound.single
  · intro operation begun
    obtain ⟨before, earlier, rfl⟩ := mem_map.mp begun
    exact succ_le_succ ((le_add_right _ _).trans (sound.fenced before earlier))

theorem Sound.move (sound : Sound s operations) (hm : Move s operations t after) :
    Sound t after := by
  cases hm with
  | unmoved completed failures report hs ht => exact { sound with }
  | admitted id completed failures report absent idle room hs ht =>
    exact sound.enqueue absent idle room
  | rolledBack work report waiting hs ht => exact sound.dequeue waiting
  | begun work queue report head hs ht =>
    -- The head leaves the queue, as a rolled back admission does, and then is in flight.
    have waiting : work ∈ s.queue := by simp [head]
    have distinct := sound.distinct
    rw [head, map_cons, nodup_cons] at distinct
    have rest : Sound { s with report, queue, queued := s.queued.erase work.id } operations := by
      simpa [head] using sound.dequeue waiting
    exact rest.launch distinct.1 (sound.disjoint work.id (mem_map_of_mem waiting))
      (sound.current work waiting).le
  | finished work completed failures report active hs ht => exact sound.finish active
  | cancelled report hs ht => exact sound.cancel

def Accounted (s : PrefetchExecutionState ε) : Prop :=
  s.report.submitted = s.queue.length + s.inFlight.size + s.report.settled

theorem Accounted.move (ha : Accounted s) (h : Sound s operations)
    (hl : s.report.submitted < maximum) (hm : Move s operations t after) : Accounted t := by
  unfold Accounted at ha ⊢
  cases hm with
  | unmoved completed failures report hs ht => rw [hs, ht, ha]
  | admitted id completed failures report hq hi hc hs ht =>
    simp only [length_append, length_singleton, hs, saturatingAdd]
    omega
  | rolledBack work report hw hs ht =>
    have hp := length_pos_of_mem hw
    simp only [length_erase_of_mem hw]
    omega
  | begun work queue report hq hs ht =>
    have hn := h.disjoint work.id (by simp [hq])
    simp only [size_eq_total, total_insert_absent _ _ hn, hs, ht] at ha ⊢
    rw [ha, hq, length_cons]
    omega
  | finished work completed failures report hf hs ht =>
    simp only [size_eq_total, hs] at ha ⊢
    rw [total_erase _ hf] at ha
    omega
  | cancelled report hs ht =>
    simp only [length_nil, hs]
    omega

theorem run_sound {capacity : Nat} (hn : .ok s = PrefetchExecutionState.new capacity)
    (events : List (PrefetchEvent ε)) :
    let r := run s events
    Sound r.state r.operations ∧ r.state.queueCapacity = capacity ∧
      (r.saturated = false → Accounted r.state) := by
  unfold PrefetchExecutionState.new at hn
  split at hn
  · cases hn
  cases hn
  refine List.foldlRecOn (motive := fun r => Sound r.state r.operations ∧
    r.state.queueCapacity = capacity ∧ (r.saturated = false → Accounted r.state)) events step
    ?_ fun r hr event _ => ?_
  · refine ⟨⟨zero_le _, by simp, nodup_nil, by simp, by simp, ?_, nodup_nil, by simp⟩,
      rfl, fun _ => rfl⟩
    simp [unfinished]
  · have hm := step_move r.state r.operations event
    refine ⟨hr.1.move hm, ?_, fun hs => ?_⟩
    · exact hm.queueCapacity.trans hr.2.1
    · simp only [step, Bool.or_eq_false_iff, decide_eq_false_iff_not] at hs
      exact (hr.2.2 hs.1).move hr.1 (Nat.lt_of_not_le hs.2) hm

theorem Sound.complete_fenced (h : Sound s operations) {operation : PrefetchOperation}
    (ho : operation ∈ operations) (hf : operation.fenced = true) (result : Except ε Unit) :
    let after := s.complete operation.work result
    after.2 ≠ .ok .published ∧ after.2 ≠ .ok .failed ∧
      after.1.completed = s.completed ∧ after.1.failures = s.failures := by
  have hg := h.fenced operation ho
  rw [hf, Bool.toNat_true] at hg
  have hne : operation.work.generation ≠ s.generation := by omega
  unfold PrefetchExecutionState.complete
  split
  · simp
  · split
    · simp
    · simp [hne]

/-- The queued set is the ids of the bounded queue, which are distinct, not in flight and of the
current generation; a unit has at most one operation in flight; a completion after a cancellation
is discarded; and, unless the number of submissions has met its maximum, every submission is
waiting, in flight, completed, failed or cancelled. -/
theorem prefetch_lifecycle {capacity : Nat} (hn : .ok s = PrefetchExecutionState.new capacity)
    (events : List (PrefetchEvent ε)) :
    let r := run s events
    (∀ id, id ∈ r.state.queued ↔ id ∈ r.state.queue.map (·.id)) ∧
      (r.state.queue.map (·.id)).Nodup ∧ r.state.queue.length ≤ capacity ∧
      (∀ id ∈ r.state.queued, r.state.inFlight[id]? = none) ∧
      (∀ work ∈ r.state.queue, work.generation = r.state.generation) ∧
      ((unfinished r.operations).map (·.id)).Nodup ∧
      (∀ work, r.state.inFlight[work.id]? = some work.generation ↔ work ∈ unfinished r.operations) ∧
      (∀ operation ∈ r.operations, operation.fenced = true → ∀ result,
        (r.state.complete operation.work result).2 ≠ .ok .published ∧
        (r.state.complete operation.work result).2 ≠ .ok .failed ∧
        (r.state.complete operation.work result).1.completed = r.state.completed ∧
        (r.state.complete operation.work result).1.failures = r.state.failures) ∧
      (r.saturated = false →
        r.state.report.submitted = r.state.queue.length + r.state.inFlight.size +
          r.state.report.completed + r.state.report.failed + r.state.report.cancelled) := by
  obtain ⟨h, hc, ha⟩ := run_sound hn events
  refine ⟨h.queued, h.distinct, h.bounded.trans_eq hc, fun id hi => ?_, h.current, h.single,
    h.inFlight, fun operation ho hf => h.complete_fenced ho hf, fun hs => ?_⟩
  · exact h.disjoint id ((h.queued id).mp hi)
  · have hb := ha hs
    unfold Accounted BackgroundPrefetchReport.settled at hb
    omega

/-- A unit is cancelled while it is in flight: its completion is neither published nor failed. -/
theorem prefetch_lifecycle_cancelled :
    let s : PrefetchExecutionState Unit := ⟨0, 1, [], ∅, ∅, ∅, ∅, { queueCapacity := 1 }⟩
    let r := run s [.admitUnit ⟨"layer"⟩ false, .beginNext, .cancelAll]
    .ok s = PrefetchExecutionState.new 1 ∧ r.state.inFlight[(⟨"layer"⟩ : OffloadUnitId)]? = some 0 ∧
      (r.state.complete ⟨0, ⟨"layer"⟩⟩ (.ok ())).2 ≠ .ok .published ∧
      (r.state.complete ⟨0, ⟨"layer"⟩⟩ (.ok ())).2 ≠ .ok .failed := by
  intro s r
  have fresh : .ok s = PrefetchExecutionState.new 1 := rfl
  obtain ⟨-, -, -, -, -, -, -, stale, -⟩ :=
    prefetch_lifecycle fresh [.admitUnit ⟨"layer"⟩ false, .beginNext, .cancelAll]
  obtain ⟨published, failed, -⟩ := stale ⟨⟨0, ⟨"layer"⟩⟩, false, true⟩ (by decide) rfl (.ok ())
  exact ⟨fresh, by decide, published, failed⟩

end PrefetchRun

end Eredu.Residency
