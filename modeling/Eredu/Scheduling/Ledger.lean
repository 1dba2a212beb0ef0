import Eredu.Foundation.MapTotal
import Eredu.Scheduling.Turn

/-!
# The ownership ledger

An abstract account of who owns every transition. The ledger forgets telemetry,
worlds and results; it keeps the containers, the lifecycle table, the occupancy
counter and the history. Entries that a completion loop has taken out of the
submitted list are `outside` until they are settled or put back.

`Transition` lists the moves the scheduler is allowed to make. The scheduler's
operations are shown elsewhere to make no others; the invariants here hold along
every sequence of moves.
-/

namespace Eredu.Scheduling

open Std Function Disposition

/-- The ownership view of a scheduler. -/
structure Ledger (W S B O : Type) where
  limits : SchedulerLimits
  requests : TreeMap RequestId (Request W S)
  terminal : RequestId → Option RequestStatus
  ready : List RequestId
  prepared : List (Prepared W B)
  submitted : List (Submitted W B O)
  outside : List (Submitted W B O)
  lifecycle : WorkId → Option WorkLifecycle
  accepted : Nat
  history : List (Event S)

variable {Ω W S B O : Type}

/-- The ledger of a machine whose completion loop holds `outside`. -/
def Machine.ledger (m : Machine Ω W S B O) (outside : List (Submitted W B O)) : Ledger W S B O where
  limits := m.scheduler.limits
  requests := m.scheduler.requests
  terminal request := m.scheduler.terminal[request]?
  ready := m.scheduler.ready
  prepared := m.scheduler.prepared
  submitted := m.scheduler.submitted
  outside := outside
  lifecycle id := m.scheduler.lifecycle[id]?
  accepted := m.scheduler.acceptedWork
  history := m.history

def Event.published : Event S → Option WorkId
  | .committed id _ _ true => some id
  | _ => none

def publishedIds (history : List (Event S)) : List WorkId :=
  (history.filterMap Event.published).reverse

variable (ledger : Ledger W S B O) (id : WorkId) (closed : RequestId → Bool)

namespace Ledger

def queueLength (entry : Request W S) : Nat := entry.pending.length

def inFlight : List (Submitted W B O) :=
  ledger.submitted ++ ledger.outside

/-- Unpublished branches of one request, wherever they are held. -/
def branches (request : RequestId) : Nat :=
  (ledger.prepared.countP fun work => work.id.request = request) +
    ledger.inFlight.countP fun work => work.id.request = request

def InQueue : Prop :=
  ∃ entry, ledger.requests[id.request]? = some entry ∧ ∃ work ∈ entry.pending, work.id = id

def InPrepared : Prop :=
  ∃ work ∈ ledger.prepared, work.id = id

def InFlight : Prop :=
  ∃ work ∈ ledger.inFlight, work.id = id

def Holds : Prop :=
  ledger.InQueue id ∨ ledger.InPrepared id ∨ ledger.InFlight id

/-- The identity was issued to a request that is still active. -/
def Active : Prop :=
  ∃ entry, ledger.requests[id.request]? = some entry ∧ id.sequence < entry.next

/-- The identity was issued to a request that is still known. -/
def Issued : Prop :=
  ledger.Active id ∨ ledger.terminal id.request ≠ none

def abandonIf (now : Nat) (work : Submitted W B O) : Submitted W B O :=
  if closed work.id.request && work.disposition.isPublish then
    { work with disposition := .abandon now }
  else work

/-- The requests selected by `closed` end: they and their unsubmitted work leave, and their
submissions are kept without the right to publish. -/
structure Closes (before after : Ledger W S B O) : Prop where
  limits : after.limits = before.limits
  requests : ∀ request : RequestId,
    after.requests[request]? = if closed request then none else before.requests[request]?
  ended : ∀ request entry, closed request = true → before.requests[request]? = some entry →
    after.terminal request ≠ none
  terminal : ∀ request, closed request = false ∨ before.requests[request]? = none →
    after.terminal request = before.terminal request
  ready : after.ready = before.ready.filter fun request => !closed request
  prepared : after.prepared = before.prepared.filter fun work => !closed work.id.request
  submitted : ∃ now, after.submitted = before.submitted.map (abandonIf closed now)
  outside : after.outside = before.outside
  accepted : after.accepted = before.accepted -
    (total queueLength (before.requests.filter fun request _ => closed request) +
      before.prepared.countP fun work => closed work.id.request)
  discarded : ∀ id, closed id.request = true → before.InQueue id ∨ before.InPrepared id →
    after.lifecycle id = some .abandoned ∨ after.lifecycle id = some .failed
  abandoned : ∀ work ∈ before.submitted, closed work.id.request = true →
    work.disposition = .publish → after.lifecycle work.id = some .abandoned
  lifecycle : ∀ id, (closed id.request = true → ¬ before.InQueue id ∧ ¬ before.InPrepared id ∧
      ∀ work ∈ before.submitted, work.disposition = .publish → work.id ≠ id) →
    after.lifecycle id = before.lifecycle id
  history : after.history = before.history

inductive Transition (permits : S → Bool) :
    Ledger W S B O → Ledger W S B O → Prop
  | register {ledger : Ledger W S B O} (request : RequestId) (state : S)
      (settled : ledger.outside = [])
      (inactive : ledger.requests[request]? = none) (fresh : ledger.terminal request = none)
      (room : ledger.requests.size < ledger.limits.maxActiveRequests) :
      Transition permits ledger { ledger with
        requests := ledger.requests.insert request { state, next := 0, pending := [] }
        history := .registered request state :: ledger.history }
  | access {ledger : Ledger W S B O} (request : RequestId)
      (entry : Request W S) (state : S)
      (settled : ledger.outside = [])
      (idle : ledger.branches request = 0) (active : ledger.requests[request]? = some entry) :
      Transition permits ledger { ledger with
        requests := ledger.requests.insert request { entry with state }
        history := .accessed request state :: ledger.history }
  | enqueue {ledger : Ledger W S B O} (request : RequestId)
      (entry : Request W S) (work : List (W × Option Nat))
      (lifecycle : WorkId → Option WorkLifecycle)
      (settled : ledger.outside = [])
      (active : ledger.requests[request]? = some entry)
      (room : ledger.accepted + work.length ≤ ledger.limits.maxQueuedWork)
      (representable : entry.next.toNat + work.length ≤ u64Max)
      (marked : ∀ id, lifecycle id =
        if id ∈ (batchEntries request entry.next.toNat work).map (·.id) then some .queued
        else ledger.lifecycle id) :
      Transition permits ledger { ledger with
        requests := ledger.requests.insert request { entry with
          next := UInt64.ofNat (entry.next.toNat + work.length)
          pending := entry.pending ++ batchEntries request entry.next.toNat work }
        lifecycle
        ready := if entry.pending.isEmpty && work.length ≠ 0 then ledger.ready ++ [request]
          else ledger.ready
        accepted := ledger.accepted + work.length }
  | rotate {ledger : Ledger W S B O} (ready : List RequestId)
      (same : ready.Perm ledger.ready) : Transition permits ledger { ledger with ready }
  | prepare {ledger : Ledger W S B O} (request : RequestId)
      (rest : List RequestId) (entry : Request W S) (queued : Queued W)
      (pending : List (Queued W)) (prepared : Prepared W B)
      (settled : ledger.outside = [])
      (front : ledger.ready = request :: rest) (active : ledger.requests[request]? = some entry)
      (queue : entry.pending = queued :: pending)
      (permitted : ledger.branches request = 0 ∨ permits entry.state = true)
      (room : ledger.branches request < ledger.limits.maxInFlightPerRequest)
      (same : prepared.id = queued.id) :
      Transition permits ledger { ledger with
        requests := ledger.requests.insert request { entry with pending }
        ready := if pending.isEmpty then rest else rest ++ [request]
        prepared := ledger.prepared ++ [prepared]
        lifecycle := update ledger.lifecycle queued.id (some .prepared)
        history := .branched queued.id entry.state :: ledger.history }
  | reject {ledger : Ledger W S B O} (request : RequestId)
      (rest : List RequestId) (entry : Request W S) (queued : Queued W)
      (pending : List (Queued W))
      (settled : ledger.outside = [])
      (front : ledger.ready = request :: rest) (active : ledger.requests[request]? = some entry)
      (queue : entry.pending = queued :: pending) :
      Transition permits ledger { ledger with
        requests := ledger.requests.insert request { entry with pending }
        ready := if pending.isEmpty then rest else rest ++ [request]
        lifecycle := update ledger.lifecycle queued.id (some .failed)
        accepted := ledger.accepted - 1 }
  | submit {ledger : Ledger W S B O} (prepared : Prepared W B)
      (rest : List (Prepared W B)) (work : Submitted W B O)
      (settled : ledger.outside = [])
      (front : ledger.prepared = prepared :: rest)
      (room : ledger.submitted.length < ledger.limits.maxInFlightGlobal)
      (same : work.id = prepared.id) (publishes : work.disposition = .publish) :
      Transition permits ledger { ledger with
        prepared := rest
        submitted := ledger.submitted ++ [work]
        lifecycle := update ledger.lifecycle prepared.id (some .submitted) }
  | refuse {ledger : Ledger W S B O} (prepared : Prepared W B)
      (rest : List (Prepared W B))
      (settled : ledger.outside = [])
      (front : ledger.prepared = prepared :: rest) :
      Transition permits ledger { ledger with
        prepared := rest
        lifecycle := update ledger.lifecycle prepared.id (some .failed)
        accepted := ledger.accepted - 1 }
  | close {ledger after : Ledger W S B O} (closed : RequestId → Bool)
      (closes : Closes closed ledger after) : Transition permits ledger after
  | detach {ledger : Ledger W S B O} (settled : ledger.outside = []) :
      Transition permits ledger { ledger with submitted := [], outside := ledger.submitted }
  | settle {ledger : Ledger W S B O}
      (left right : List (Submitted W B O)) (work : Submitted W B O)
      (stage : WorkLifecycle)
      (taken : ledger.outside = left ++ work :: right)
      (final : stage = .abandoned ∨ stage = .failed) :
      Transition permits ledger { ledger with
        outside := left ++ right
        lifecycle := update ledger.lifecycle work.id (some stage)
        accepted := ledger.accepted - 1 }
  | free {ledger : Ledger W S B O}
      (left right : List (Submitted W B O)) (work : Submitted W B O)
      (cancelledAt : Nat)
      (taken : ledger.outside = left ++ work :: right)
      (cancelled : work.disposition = .abandon cancelledAt) :
      Transition permits ledger { ledger with
        outside := left ++ right
        accepted := ledger.accepted - 1 }
  | commit {ledger : Ledger W S B O}
      (left right : List (Submitted W B O)) (work : Submitted W B O)
      (entry : Request W S) (state : S) (success : Bool)
      (taken : ledger.outside = left ++ work :: right)
      (publishes : work.disposition = .publish)
      (active : ledger.requests[work.id.request]? = some entry) :
      Transition permits ledger { ledger with
        requests := ledger.requests.insert work.id.request { entry with state }
        outside := left ++ right
        lifecycle := update ledger.lifecycle work.id
          (some (if success then .committed else .failed))
        accepted := ledger.accepted - 1
        history := .committed work.id entry.state state success :: ledger.history }
  | condemn {ledger : Ledger W S B O}
      (left right : List (Submitted W B O)) (work : Submitted W B O)
      (taken : ledger.outside = left ++ work :: right) :
      Transition permits ledger { ledger with
        outside := left ++ { work with disposition := .fail } :: right
        lifecycle := update ledger.lifecycle work.id (some .failed) }
  | attach {ledger : Ledger W S B O} (now : Nat)
      (lifecycle : WorkId → Option WorkLifecycle)
      (taken : ledger.submitted = [])
      (marked : ∀ id, lifecycle id =
        if ∃ work ∈ ledger.outside, work.id = id ∧ work.disposition = .publish ∧
          ledger.requests[id.request]? = none then some .abandoned
        else ledger.lifecycle id) :
      Transition permits ledger { ledger with
        submitted := ledger.outside.map
          (abandonIf (fun request => !ledger.requests.contains request) now)
        outside := []
        lifecycle }

theorem Transition.to {permits : S → Bool} {before target after : Ledger W S B O}
    (hs : Transition permits before target) (hsa : after = target) :
    Transition permits before after := hsa ▸ hs

/-- The lifecycle of a transition says which container holds it. -/
structure Staged (ledger : Ledger W S B O) (id : WorkId) : Prop where
  queued : ledger.lifecycle id = some .queued ↔ ledger.InQueue id
  prepared : ledger.lifecycle id = some .prepared ↔ ledger.InPrepared id
  flight : ∀ work ∈ ledger.inFlight, work.id = id →
    ledger.lifecycle id = some work.disposition.lifecycle
  submitted : ledger.lifecycle id = some .submitted → ledger.InFlight id
  settling : ledger.lifecycle id ≠ some .completing

/-- The active requests, their queues and the ready queue fit together. -/
structure Directory (ledger : Ledger W S B O) : Prop where
  /-- Queued work carries its owner and a sequence number already issued. -/
  queueOwned : ∀ (request : RequestId) entry, ledger.requests[request]? = some entry →
    ∀ work ∈ entry.pending, work.id.request = request ∧ work.id.sequence < entry.next
  queueOrdered : ∀ (request : RequestId) entry, ledger.requests[request]? = some entry →
    entry.pending.Pairwise fun earlier later => earlier.id.sequence < later.id.sequence
  exclusive : ∀ request : RequestId, ledger.requests[request]? ≠ none →
    ledger.terminal request = none
  readyDistinct : ledger.ready.Nodup
  readyQueued : ∀ request : RequestId, request ∈ ledger.ready ↔
    ∃ entry, ledger.requests[request]? = some entry ∧ entry.pending ≠ []
  withinActive : ledger.requests.size ≤ ledger.limits.maxActiveRequests

/-- What holds of a ledger between any two moves. -/
structure Sound (ledger : Ledger W S B O) : Prop extends Directory ledger where
  staged : ∀ id, ledger.Staged id
  preparedActive : ∀ work ∈ ledger.prepared, ledger.Active work.id
  preparedDistinct : (ledger.prepared.map (·.id)).Nodup
  flightIssued : ∀ work ∈ ledger.inFlight, ledger.Issued work.id
  flightDistinct : (ledger.inFlight.map (·.id)).Nodup
  publishActive : ∀ work ∈ ledger.submitted, work.disposition = .publish →
    ledger.requests[work.id.request]? ≠ none
  accounted : ledger.accepted =
    total queueLength ledger.requests + ledger.prepared.length + ledger.inFlight.length
  withinQueue : ledger.accepted ≤ ledger.limits.maxQueuedWork
  withinGlobal : ledger.inFlight.length ≤ ledger.limits.maxInFlightGlobal
  withinRequest : ∀ request, ledger.branches request ≤ ledger.limits.maxInFlightPerRequest

variable {ledger after : Ledger W S B O} {id : WorkId}

/-- A move that leaves the lifecycle and the holders of an identity alone keeps it staged. -/
theorem Staged.congr (hs : ledger.Staged id) (hl : after.lifecycle id = ledger.lifecycle id)
    (hq : after.InQueue id ↔ ledger.InQueue id) (hp : after.InPrepared id ↔ ledger.InPrepared id)
    (hf : ∀ work, work.id = id → (work ∈ after.inFlight ↔ work ∈ ledger.inFlight)) :
    after.Staged id where
  queued := by rw [hl, hq, hs.queued]
  prepared := by rw [hl, hp, hs.prepared]
  flight work hm hsa := by
    rw [hl]
    exact hs.flight work ((hf work hsa).mp hm) hsa
  submitted hst := by
    rw [hl] at hst
    obtain ⟨work, hm, hsa⟩ := hs.submitted hst
    exact ⟨work, (hf work hsa).mpr hm, hsa⟩
  settling := by rw [hl]; exact hs.settling

section Settled

variable {stage : WorkLifecycle} (hl : ledger.lifecycle id = some stage)
  (hs : stage = .committed ∨ stage = .abandoned ∨ stage = .failed)
include hl hs

theorem Staged.of_stage (hq : ¬ ledger.InQueue id) (hp : ¬ ledger.InPrepared id)
    (hf : ∀ work ∈ ledger.inFlight, work.id = id → work.disposition.lifecycle = stage) :
    ledger.Staged id := by
  refine ⟨?_, ?_, ?_, ?_, ?_⟩
  · simp only [hq, hl]
    rcases hs with rfl | rfl | rfl <;> simp
  · simp only [hp, hl]
    rcases hs with rfl | rfl | rfl <;> simp
  · exact fun work hm hsa => hl.trans (congrArg some (hf work hm hsa).symm)
  · rw [hl]
    rcases hs with rfl | rfl | rfl <;> simp
  · rw [hl]
    rcases hs with rfl | rfl | rfl <;> simp

theorem Staged.of_settled (hf : ¬ ledger.Holds id) : ledger.Staged id := by
  simp only [Holds, not_or] at hf
  exact .of_stage hl hs hf.1 hf.2.1 fun work hm hsa => absurd ⟨work, hm, hsa⟩ hf.2.2

end Settled

theorem Staged.exclusive_queue (hst : ledger.Staged id) (hh : ledger.InQueue id) :
    ¬ ledger.InPrepared id ∧ ¬ ledger.InFlight id := by
  have hs := hst.queued.mpr hh
  refine ⟨fun hp => ?_, fun ⟨work, hm, hsa⟩ => ?_⟩
  · rw [hst.prepared.mpr hp] at hs
    cases hs
  · rw [hst.flight work hm hsa] at hs
    cases hd : work.disposition <;> simp [hd, Disposition.lifecycle] at hs

theorem Staged.exclusive_prepared (hs : ledger.Staged id) (hh : ledger.InPrepared id) :
    ¬ ledger.InQueue id ∧ ¬ ledger.InFlight id := by
  refine ⟨fun hq => (hs.exclusive_queue hq).1 hh, fun ⟨work, hm, hsa⟩ => ?_⟩
  have hst := hs.prepared.mpr hh
  rw [hs.flight work hm hsa] at hst
  cases hd : work.disposition <;> simp [hd, Disposition.lifecycle] at hst

theorem Staged.exclusive_flight (hs : ledger.Staged id) (hh : ledger.InFlight id) :
    ¬ ledger.InQueue id ∧ ¬ ledger.InPrepared id :=
  ⟨fun hq => (hs.exclusive_queue hq).2 hh, fun hp => (hs.exclusive_prepared hp).2 hh⟩

theorem inQueue_insert {request : RequestId} {entry : Request W S}
    (hr : after.requests = ledger.requests.insert request entry) (id : WorkId) :
    after.InQueue id ↔
      if id.request = request then ∃ work ∈ entry.pending, work.id = id else ledger.InQueue id := by
  simp only [InQueue, hr, lookup_insert]
  split <;> simp

theorem inQueue_of_active {request : RequestId} {entry : Request W S}
    (ha : ledger.requests[request]? = some entry) (ho : id.request = request) :
    ledger.InQueue id ↔ ∃ work ∈ entry.pending, work.id = id := by
  simp [InQueue, ho, ha]

end Ledger

end Eredu.Scheduling
