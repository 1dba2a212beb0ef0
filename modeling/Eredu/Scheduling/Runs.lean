import Eredu.Scheduling.TurnSimulation

/-!
# Runs of the scheduler

A run is any sequence of calls of the scheduler's public methods, with the
world changing freely between them. Every call moves the ledger along the
protocol or gives an identity up, so the ledger stays sound; the occupancy and
lifecycle results are what soundness says about the scheduler's own fields.
-/

namespace Eredu.Scheduling

open Std Ledger Effect Machine Scheduler List

variable {Ω W S B O : Type}

inductive Command (Ω W S : Type) where
  | register (request : RequestId) (state : S)
  | requestStateMut (request : RequestId) (access : S → S)
  | enqueueBatch (request : RequestId) (work : List (W × Option Nat))
  | prepareBounded (limit now : Nat)
  | submitPrepared (now : Nat)
  | pollCompletions (now : Nat)
  | runLocalTurn (now : Nat)
  | runDistributedTurn (protocol : UInt64) (now : Nat)
  | cancel (request : RequestId) (now : Nat)
  | cancelDistributed (protocol : UInt64) (request : RequestId) (now : Nat)
  | finish (request : RequestId)
  | release (request : RequestId)
  | forgetTerminal (request : RequestId)
  | outside (change : Ω → Ω)

def Command.givesUp : Command Ω W S → Option RequestId
  | .release request => some request
  | .forgetTerminal request => some request
  | _ => none

variable (env : Environment Ω W S B O)

/-- The call with the progress it returns. Calls that report none return the empty progress. -/
def perform : Command Ω W S →
    Op Ω W S B O (SchedulerProgress W O)
  | .register request state => do
      register request state
      pure {}
  | .requestStateMut request access => do
      requestStateMut request access
      pure {}
  | .enqueueBatch request work => do
      let _ ← enqueueBatchWithDeadlines request work
      pure {}
  | .prepareBounded limit now => do
      let _ ← prepareBounded env limit now
      pure {}
  | .submitPrepared now => do
      let _ ← submitPrepared env now
      pure {}
  | .pollCompletions now => Effect.apply (pollCompletions env now)
  | .runLocalTurn now => runLocalTurn env now
  | .runDistributedTurn protocol now => runDistributedTurn env protocol now
  | .cancel request now => do
      cancelAt env request now
      pure {}
  | .cancelDistributed protocol request now => do
      cancelDistributed env protocol request now
      pure {}
  | .finish request => do
      finish env request
      pure {}
  | .release request => do
      let _ ← release request
      pure {}
  | .forgetTerminal request => do
      let _ ← forgetTerminal request
      pure {}
  | .outside change => do
      modify fun m => { m with world := change m.world }
      pure {}

variable (m : Machine Ω W S B O) (command : Command Ω W S)

/-- The machine a call leaves, whatever it returns. -/
def step : Machine Ω W S B O :=
  (perform env command).final m

def run (commands : List (Command Ω W S)) : Machine Ω W S B O :=
  commands.foldl (step env) m

inductive Reachable : Machine Ω W S B O → Prop
  | new {limits : SchedulerLimits} {scheduler : Scheduler W S B O} (world : Ω)
      (created : new limits = .ok scheduler) : Reachable { scheduler, world }
  | step {m : Machine Ω W S B O} (reachable : Reachable m)
      (command : Command Ω W S) : Reachable (step env m command)

def GivesUp (request : RequestId) : Prop :=
  command.givesUp = some request ∧ ((perform env command).outcome m).1.isOk = true

variable (request : RequestId)

def Keeps (request : RequestId) :
    Machine Ω W S B O → List (Command Ω W S) → Prop
  | _, [] => True
  | m, command :: rest => ¬ GivesUp env m command request ∧ Keeps request (step env m command) rest

theorem branches_ledger : (m.ledger []).branches request = m.scheduler.branchCount request := by
  simp [Ledger.branches, inFlight, ledger, branchCount]

theorem release_frees (m : Machine Ω W S B O) :
    (release request).Yields m (fun _ after => Frees request (m.ledger []) (after.ledger []))
      (fun _ after => after = m) := by
  simp only [release, yields_bind]
  refine (ensureReady_yields m).mono ?_ fun _ _ hs => hs.symm ▸ rfl
  rintro _ m ⟨rfl, -⟩
  simp only [yields_get]
  split
  · exact rfl
  rename_i entry ha
  split
  · exact rfl
  rename_i hi
  simp only [Bool.or_eq_true, Bool.not_eq_true', decide_eq_true_eq, not_or,
    Bool.not_eq_false, not_not, List.isEmpty_iff] at hi
  exact .release entry _ rfl ha hi.1 ((branches_ledger m request).trans hi.2)
    fun other => lookup_erase _ _ _

theorem forgetTerminal_frees (m : Machine Ω W S B O) :
    (forgetTerminal request).Yields m (fun _ after => Frees request (m.ledger []) (after.ledger []))
      (fun _ after => after = m) := by
  simp only [forgetTerminal, yields_bind]
  refine (ensureReady_yields m).mono ?_ fun _ _ => id
  rintro _ m ⟨rfl, -⟩
  simp only [yields_get]
  split
  · exact rfl
  rename_i hq
  split
  · exact rfl
  rename_i status he
  simp only [yields_bind, yields_modify, yields_pure]
  have hq : ∀ work ∈ m.scheduler.submitted, work.id.request ≠ request := by
    simpa using hq
  have hk : (m.ledger []).terminal request ≠ none := by simp [ledger, he]
  have hf : Frees request (m.ledger []) _ := .forget rfl hk hq
  convert hf using 1
  simp [ledger, update, funext_iff, lookup_erase, Function.update_apply]

variable {m : Machine Ω W S B O}

theorem step_of_frees {α : Type} {method : Op Ω W S B O α} {command : Command Ω W S}
    {request : RequestId}
    (hf : method.Yields m (fun _ after => Frees request (m.ledger []) (after.ledger []))
      (fun _ after => after = m)) (hs : command.givesUp = some request)
    (hp : perform env command = do let _ ← method; pure {}) :
    Reaches env.permitsParallelBranches (m.ledger []) ((step env m command).ledger []) ∨
      ∃ request, GivesUp env m command request ∧
        Frees request (m.ledger []) ((step env m command).ledger []) := by
  unfold Yields at hf
  unfold step GivesUp Effect.final
  rw [hp, outcome_bind]
  generalize method.outcome m = result at hf ⊢
  rcases result with ⟨fault | value, after⟩
  · cases hf
    exact .inl .refl
  · exact .inr ⟨request, ⟨hs, rfl⟩, hf⟩

/-- A call moves the ledger along the protocol, or gives up the identity it was asked to. -/
theorem step_moves (hs : (m.ledger []).Sound) :
    Reaches env.permitsParallelBranches (m.ledger []) ((step env m command).ledger []) ∨
      ∃ request, GivesUp env m command request ∧
        Frees request (m.ledger []) ((step env m command).ledger []) := by
  have hf : ∀ {α : Type} {method : Op Ω W S B O α},
      Guarantee (Follows env) method → ∀ value : α → SchedulerProgress W O,
      Reaches env.permitsParallelBranches (m.ledger [])
        (((do let result ← method; pure (value result)) :
          Op Ω W S B O _).final m |>.ledger []) :=
    fun hg value => ((hg.bind fun _ => guarantee_pure _).final m).reaches hs
  cases command with
  | register request state => exact .inl (hf (register_follows env request state) _)
  | requestStateMut request access =>
    exact .inl (hf (requestStateMut_follows env request access) _)
  | enqueueBatch request work =>
    exact .inl (hf (enqueueBatchWithDeadlines_follows env request work) _)
  | prepareBounded limit now => exact .inl (hf ((follows_advances env).prepareBounded limit now) _)
  | submitPrepared now => exact .inl (hf ((follows_advances env).submitPrepared now) _)
  | pollCompletions now => exact .inl ((pollCompletions_delivers env now m).reaches hs)
  | runLocalTurn now =>
    refine .inl ?_
    rw [step, perform, runLocalTurn_eq]
    exact (localOpening_reports env now).inTwoPhases_reaches env (localClosing_reports env now) hs
  | runDistributedTurn protocol now =>
    refine .inl ?_
    rw [step, perform, runDistributedTurn_eq]
    exact (distributedOpening_reports env protocol now).inTwoPhases_reaches env
      (distributedClosing_reports env protocol now) hs
  | cancel request now => exact .inl (hf ((follows_interrupts env).cancelInternal request .explicit now) _)
  | cancelDistributed protocol request now =>
    exact .inl (hf ((follows_interrupts env).cancelDistributed protocol request now) _)
  | finish request => exact .inl (hf (finish_follows env request) _)
  | release request => exact step_of_frees env (release_frees request m) rfl rfl
  | forgetTerminal request => exact step_of_frees env (forgetTerminal_frees request m) rfl rfl
  | outside change => exact .inl .refl

variable {scheduler : Scheduler W S B O} {limits : SchedulerLimits}

theorem Scheduler.new_eq (hc : new limits = .ok scheduler) : scheduler = { limits } := by
  unfold new SchedulerLimits.withExecutionBounds at hc
  dsimp only at hc
  split at hc
  · cases hc
  · cases hc
    rfl

theorem Sound.new (world : Ω) (hc : new limits = .ok scheduler) :
    (ledger { scheduler, world } []).Sound := by
  have he := new_eq hc
  subst he
  refine ⟨⟨?_, ?_, ?_, .nil, ?_, ?_⟩, fun id => ⟨?_, ?_, ?_, ?_, ?_⟩, ?_, .nil, ?_, .nil, ?_, rfl,
    ?_, ?_, ?_⟩ <;>
  simp [ledger, InQueue, InPrepared, inFlight, Ledger.branches]

theorem Sound.step (hs : (m.ledger []).Sound) (command : Command Ω W S) :
    ((step env m command).ledger []).Sound := by
  rcases step_moves env command hs with hm | ⟨_, _, hf⟩
  · exact hs.reaches hm
  · exact hs.frees hf

theorem Reachable.sound (hr : Reachable env m) : (m.ledger []).Sound := by
  induction hr with
  | new world hc => exact Sound.new world hc
  | step _ command ih => exact Sound.step env ih command

theorem Reachable.run (hr : Reachable env m) (commands : List (Command Ω W S)) :
    Reachable env (run env m commands) := by
  induction commands generalizing m with
  | nil => exact hr
  | cons command rest ih => exact ih (hr.step command)

theorem run_append (m : Machine Ω W S B O) (earlier later : List (Command Ω W S)) :
    run env m (earlier ++ later) = run env (run env m earlier) later :=
  foldl_append

theorem keeps_append (request : RequestId) (m : Machine Ω W S B O)
    (earlier later : List (Command Ω W S)) : Keeps env request m (earlier ++ later) ↔
      Keeps env request m earlier ∧ Keeps env request (run env m earlier) later := by
  induction earlier generalizing m with
  | nil => simp [Keeps, run]
  | cons command rest ih =>
    simp only [cons_append, Keeps, ih, and_assoc]
    rfl

def Scheduler.heldIds (s : Scheduler W S B O) : List WorkId :=
  s.queuedIds ++ (s.prepared.map (·.id) ++ s.submitted.map (·.id))

theorem mem_heldIds (hs : (m.ledger []).Sound) (id : WorkId) :
    id ∈ m.scheduler.heldIds ↔ (m.ledger []).Holds id := by
  simp [heldIds, mem_queuedIds hs, Holds, InPrepared, InFlight, inFlight, ledger]

theorem nodup_queuedIds (hs : (m.ledger []).Sound) : m.scheduler.queuedIds.Nodup := by
  refine nodup_flatMap.mpr ⟨?_, ?_⟩
  · rintro ⟨request, entry⟩ hl
    have ha := TreeMap.mem_toList_iff_getElem?_eq_some.mp hl
    have ho := hs.queueOrdered request entry ha
    refine List.Pairwise.map _ (fun earlier later hb hsa => ?_) ho
    rw [hsa] at hb
    exact UInt64.lt_irrefl _ hb
  · have hdi := m.scheduler.requests.distinct_keys_toList
    refine hdi.imp_of_mem ?_
    rintro ⟨first, entry⟩ ⟨second, other⟩ hl hl' hd id hin hi
    obtain ⟨work, hq, rfl⟩ := mem_map.mp hin
    obtain ⟨work', hq', hsa⟩ := mem_map.mp hi
    have how := (hs.queueOwned first entry
      (TreeMap.mem_toList_iff_getElem?_eq_some.mp hl) work hq).1
    have ho' := (hs.queueOwned second other
      (TreeMap.mem_toList_iff_getElem?_eq_some.mp hl') work' hq').1
    exact hd (compare_eq_iff_eq.mpr (by rw [← how, ← ho', hsa]))

theorem nodup_heldIds (hso : (m.ledger []).Sound) : m.scheduler.heldIds.Nodup := by
  have hp : ∀ {id : WorkId}, id ∈ m.scheduler.prepared.map (·.id) →
      (m.ledger []).InPrepared id := mem_map.mp
  have hfl : ∀ {id : WorkId}, id ∈ m.scheduler.submitted.map (·.id) →
      (m.ledger []).InFlight id := fun hl => by
    obtain ⟨work, hm, hsa⟩ := mem_map.mp hl
    exact ⟨work, mem_append_left _ hm, hsa⟩
  refine List.Nodup.append (nodup_queuedIds hso) (List.Nodup.append hso.preparedDistinct ?_ ?_) ?_
  · simpa [inFlight, ledger] using hso.flightDistinct
  · exact fun id hf hs => ((hso.staged id).exclusive_prepared (hp hf)).2 (hfl hs)
  · intro id hf hs
    have he := (hso.staged id).exclusive_queue ((mem_queuedIds hso id).mp hf)
    rcases mem_append.mp hs with hs | hs
    · exact he.1 (hp hs)
    · exact he.2 (hfl hs)

/-- States that count their transitions, under any transport. -/
def countingOver {Ω : Type} (transport : Transport Ω) : Environment Ω Bool Nat Nat Nat where
  executionSliceSize _ := 1
  encodeDescriptor encodable world :=
    (if encodable then .ok [0] else .error "work cannot be encoded", world)
  branch state world := (.ok state, world)
  commitBranch _ branch world := ((.ok (), branch), world)
  discardBranch _ world := (.ok (), world)
  permitsParallelBranches _ := false
  execute _ _ branch world := ((.ok branch, branch + 1), world)
  isComplete _ world := (.ok true, world)
  backendName _ := none
  physicallyPreemptible _ := true
  retainedResources _ _ := 1
  encodeDistributedOutput output world := (.ok [UInt32.ofNat output], world)
  outputDigest _ := Vector.replicate 8 0
  transport

def countingEnvironment : Environment Unit Bool Nat Nat Nat :=
  countingOver ⟨1, fun words world => (.completed words, world)⟩

def countingStart : Machine Unit Bool Nat Nat Nat where
  scheduler := { limits := ⟨2, 4, 2, 2, 1, 8⟩ }
  world := ()

theorem countingStart_reachable : Reachable countingEnvironment countingStart :=
  .new () (show new ⟨2, 4, 2, 2, 1, 8⟩ = .ok _ from rfl)

/-- Two requests: one item submitted, one queued behind it, and one that cannot be encoded. -/
def countingRun : List (Command Unit Bool Nat) :=
  [.register ⟨0⟩ 0, .register ⟨1⟩ 0, .enqueueBatch ⟨0⟩ [(true, none), (true, none)],
    .prepareBounded 1 0, .submitPrepared 0, .enqueueBatch ⟨1⟩ [(false, none)]]

/-- Occupancy accounting: the counter is the number of held items, every bound is kept, no request
is both active and terminal, and no identity is held twice. -/
theorem occupancy_accounted {m : Machine Ω W S B O} (reachable : Reachable env m) :
    m.scheduler.acceptedWork = m.scheduler.queuedIds.length + m.scheduler.prepared.length +
        m.scheduler.submitted.length ∧ m.scheduler.acceptedWork ≤ m.scheduler.limits.maxQueuedWork ∧
      m.scheduler.submitted.length ≤ m.scheduler.limits.maxInFlightGlobal ∧
      (∀ request, m.scheduler.branchCount request ≤ m.scheduler.limits.maxInFlightPerRequest) ∧
      m.scheduler.requests.size ≤ m.scheduler.limits.maxActiveRequests ∧
      (∀ request, ¬ (request ∈ m.scheduler.requests ∧ request ∈ m.scheduler.terminal)) ∧
      m.scheduler.heldIds.Nodup := by
  have hs := reachable.sound
  refine ⟨?_, hs.withinQueue, ?_, fun request => ?_, hs.withinActive, ?_, nodup_heldIds hs⟩
  · rw [length_queuedIds]
    simpa [inFlight, ledger] using hs.accounted
  · simpa [inFlight, ledger] using hs.withinGlobal
  · rw [← branches_ledger]
    exact hs.withinRequest request
  · rintro request ⟨ha, hen⟩
    have he := hs.exclusive request (by simpa [ledger] using ha)
    exact absurd hen (by simpa [ledger] using he)

theorem occupancy_accounted_counting :
    (run countingEnvironment countingStart countingRun).scheduler.acceptedWork = 3 ∧
      (run countingEnvironment countingStart countingRun).scheduler.heldIds.Nodup :=
  ⟨by decide, (occupancy_accounted countingEnvironment
    (countingStart_reachable.run countingEnvironment countingRun)).2.2.2.2.2.2⟩

end Eredu.Scheduling
