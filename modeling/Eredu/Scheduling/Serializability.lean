import Eredu.Scheduling.Runs

/-!
# No lost update

A request whose states permit no parallel branches has at most one branch that
can still publish, and nothing touches its canonical state while that branch
exists. The history of a run therefore shows, below every `commit_branch` call
of the request, the creation of the committed branch from the very state it is
applied to, with no use of the canonical state in between.
-/

namespace Eredu.Scheduling

open Std Ledger List UInt64

variable {Ω W S B O : Type} (request : RequestId)

/-- The canonical state of `request` that an event leaves, if it uses that state. -/
def Event.canonical : Event S → Option S
  | .registered owner state => if owner = request then some state else none
  | .accessed owner state => if owner = request then some state else none
  | .branched _ _ => none
  | .committed id _ after _ => if id.request = request then some after else none

def canonicalState (history : List (Event S)) : Option S :=
  history.findSome? (Event.canonical request)

/-- Sequence numbers committed since `request` was last registered, the newest first. -/
def commitsOf (request : RequestId) : List (Event S) → List UInt64
  | [] => []
  | .registered owner _ :: older => if owner = request then [] else commitsOf request older
  | .committed id _ _ _ :: older =>
      if id.request = request then id.sequence :: commitsOf request older
      else commitsOf request older
  | .accessed _ _ :: older => commitsOf request older
  | .branched _ _ :: older => commitsOf request older

/-- The branch of `id` was created from `state`, and no event since used the canonical state. -/
def BranchedFrom (id : WorkId) (state : S) (history : List (Event S)) : Prop :=
  ∃ between older, history = between ++ .branched id state :: older ∧
    ∀ event ∈ between, event.canonical id.request = none

/-- What a commit of `id` over `before` must find in the history below it. -/
structure CommitsCleanly (id : WorkId) (before : S) (history : List (Event S)) : Prop where
  state : canonicalState id.request history = some before
  branched : BranchedFrom id before history
  ordered : ∀ sequence ∈ commitsOf id.request history, sequence < id.sequence

def Serialized (request : RequestId) : List (Event S) → Prop
  | [] => True
  | .committed id before _ _ :: older =>
      (id.request = request → CommitsCleanly id before older) ∧ Serialized request older
  | .registered _ _ :: older => Serialized request older
  | .accessed _ _ :: older => Serialized request older
  | .branched _ _ :: older => Serialized request older

variable {state : S}

section Histories

variable {request : RequestId} {event : Event S} {history : List (Event S)}

theorem Serialized.clean {newer older : List (Event S)} {id : WorkId} {before after : S}
    {success : Bool} (hs : Serialized id.request history)
    (hc : history = newer ++ .committed id before after success :: older) :
    CommitsCleanly id before older := by
  subst hc
  induction newer with
  | nil => exact hs.1 rfl
  | cons event rest ih =>
    cases event with
    | committed => exact ih hs.2
    | registered | accessed | branched => exact ih hs

section

variable (hu : event.canonical request = none)
include hu

theorem canonicalState_cons :
    canonicalState request (event :: history) = canonicalState request history := by
  simp [canonicalState, hu]

theorem commitsOf_cons : commitsOf request (event :: history) = commitsOf request history := by
  cases event <;> simp_all [Event.canonical, commitsOf]

theorem serialized_cons
    (hs : Serialized request history) : Serialized request (event :: history) := by
  cases event with
  | committed id =>
    refine ⟨fun ho => ?_, hs⟩
    simp [Event.canonical, ho] at hu
  | registered | accessed | branched => exact hs

end

theorem BranchedFrom.cons {id : WorkId} (hb : BranchedFrom id state history)
    (hu : event.canonical id.request = none) : BranchedFrom id state (event :: history) := by
  obtain ⟨between, older, rfl, hq⟩ := hb
  refine ⟨event :: between, older, rfl, ?_⟩
  simpa [hu] using hq

end Histories

namespace Ledger

variable {ledger after : Ledger W S B O} {request : RequestId} {id : WorkId}

variable (ledger)

/-- The branch of the transition can still be published. -/
def Publishable (id : WorkId) : Prop :=
  ledger.InPrepared id ∨ ∃ work ∈ ledger.inFlight, work.id = id ∧ work.disposition = .publish

structure SerialEntry (request : RequestId) (entry : Request W S) : Prop where
  state : canonicalState request ledger.history = some entry.state
  branched : ∀ id, id.request = request → ledger.Publishable id →
    BranchedFrom id entry.state ledger.history
  committedNext : ∀ sequence ∈ commitsOf request ledger.history, sequence < entry.next
  committedQueue : ∀ sequence ∈ commitsOf request ledger.history, ∀ work ∈ entry.pending,
    sequence < work.id.sequence
  committedBranch : ∀ sequence ∈ commitsOf request ledger.history, ∀ id, id.request = request →
    ledger.Publishable id → sequence < id.sequence
  branchQueue : ∀ id, id.request = request → ledger.Publishable id → ∀ work ∈ entry.pending,
    id.sequence < work.id.sequence

/-- A request without parallel branches is served one branch at a time. -/
structure Serial (request : RequestId) : Prop where
  single : ledger.branches request ≤ 1
  entry : ∀ entry, ledger.requests[request]? = some entry → ledger.SerialEntry request entry
  serialized : Serialized request ledger.history

variable {ledger}

theorem Publishable.branches_pos (hp : ledger.Publishable id) : 0 < ledger.branches id.request := by
  rcases hp with ⟨work, hl, rfl⟩ | ⟨work, hl, rfl, -⟩
  · have hc : 0 < ledger.prepared.countP fun other => other.id.request = work.id.request :=
      countP_pos_iff.mpr ⟨work, hl, by simp⟩
    simp only [branches]
    omega
  · have hc : 0 < ledger.inFlight.countP fun other => other.id.request = work.id.request :=
      countP_pos_iff.mpr ⟨work, hl, by simp⟩
    simp only [branches]
    omega

variable {entry : Request W S}

theorem Sound.publishable_lt (hs : ledger.Sound) (ha : ledger.requests[request]? = some entry)
    (ho : id.request = request) (hp : ledger.Publishable id) : id.sequence < entry.next := by
  have hi : ledger.Active id := by
    rcases hp with ⟨work, hl, rfl⟩ | ⟨work, hl, rfl, -⟩
    · exact hs.preparedActive work hl
    · refine (hs.flightIssued work hl).resolve_right fun he => he ?_
      exact hs.exclusive _ (by simp [ho, ha])
  obtain ⟨known, hf, hb⟩ := hi
  rw [ho, ha, Option.some.injEq] at hf
  rwa [hf]

/-- Nothing that the request can publish is new. -/
structure Narrows (request : RequestId) (ledger after : Ledger W S B O) : Prop where
  branches : after.branches request ≤ ledger.branches request
  publishable : ∀ id, id.request = request → after.Publishable id → ledger.Publishable id

/-- Prepared work and submissions may go, and submissions may lose the right to publish. -/
theorem narrows_of_fewer (prepared : after.prepared.Sublist ledger.prepared)
    (flights : (after.inFlight.map (·.id)).Sublist (ledger.inFlight.map (·.id)))
    (publishing : ∀ work ∈ after.inFlight, work.disposition = .publish → work ∈ ledger.inFlight) :
    Narrows request ledger after := by
  constructor
  · have fewer := flights.countP_le (p := fun id => decide (id.request = request))
    rw [countP_map, countP_map] at fewer
    exact Nat.add_le_add prepared.countP_le fewer
  · rintro id - (⟨work, waiting, same⟩ | ⟨work, flies, same, publishes⟩)
    · exact .inl ⟨work, prepared.subset waiting, same⟩
    · exact .inr ⟨work, publishing work flies publishes, same, publishes⟩

theorem narrows_of_eq (prepared : after.prepared = ledger.prepared)
    (flights : after.inFlight = ledger.inFlight) : Narrows request ledger after := by
  refine narrows_of_fewer (by rw [prepared]) (by rw [flights]) fun work flies _ => ?_
  rwa [← flights]

theorem Serial.shrink (hse : ledger.Serial request) (narrows : Narrows request ledger after)
    (he : ∀ entry, after.requests[request]? = some entry →
      ∃ known, ledger.requests[request]? = some known ∧ entry.state = known.state ∧
        known.next ≤ entry.next ∧ ∀ work ∈ entry.pending, work ∈ known.pending)
    (history : after.history = ledger.history ∨
      ∃ event, event.canonical request = none ∧ after.history = event :: ledger.history) :
    after.Serial request := by
  have hst : canonicalState request after.history = canonicalState request ledger.history := by
    rcases history with hs | ⟨event, hu, hg⟩
    · rw [hs]
    · rw [hg, canonicalState_cons hu]
  have hco : commitsOf request after.history = commitsOf request ledger.history := by
    rcases history with hs | ⟨event, hu, hg⟩
    · rw [hs]
    · rw [hg, commitsOf_cons hu]
  refine ⟨narrows.branches.trans hse.single, fun entry ha => ?_, ?_⟩
  · obtain ⟨known, hf, hsa, hi, hqu⟩ := he entry ha
    have hc := hse.entry known hf
    refine ⟨?_, ?_, ?_, ?_, ?_, ?_⟩
    · rw [hst, hsa, hc.state]
    · intro id ho hli
      have hb := hc.branched id ho (narrows.publishable id ho hli)
      rw [hsa]
      rcases history with hs | ⟨event, hu, hg⟩
      · rwa [hs]
      · rw [hg]
        exact hb.cons (ho ▸ hu)
    · intro sequence hl
      rw [hco] at hl
      exact lt_of_lt_of_le (hc.committedNext sequence hl) hi
    · intro sequence hl work hq
      rw [hco] at hl
      exact hc.committedQueue sequence hl work (hqu work hq)
    · intro sequence hl id ho hli
      rw [hco] at hl
      exact hc.committedBranch sequence hl id ho (narrows.publishable id ho hli)
    · intro id ho hli work hq
      exact hc.branchQueue id ho (narrows.publishable id ho hli) work (hqu work hq)
  · rcases history with hs | ⟨event, hu, hg⟩
    · rw [hs]
      exact hse.serialized
    · rw [hg]
      exact serialized_cons hu hse.serialized

variable {other : RequestId}

theorem entries_of_insert {replacement : Request W S} (hd : request ≠ other)
    (hr : after.requests = ledger.requests.insert other replacement) :
    ∀ entry, after.requests[request]? = some entry →
      ∃ known, ledger.requests[request]? = some known ∧ entry.state = known.state ∧
        known.next ≤ entry.next ∧ ∀ work ∈ entry.pending, work ∈ known.pending := by
  intro entry ha
  rw [hr, lookup_insert, if_neg hd] at ha
  exact ⟨entry, ha, rfl, le_refl _, fun _ => id⟩

theorem Serial.restart (hse : ledger.Serial request) {event : Event S}
    (hi : after.branches request = 0) (ha : after.requests[request]? = some entry)
    (hle : event.canonical request = some entry.state)
    (history : after.history = event :: ledger.history)
    (hs : Serialized request (event :: ledger.history))
    (hco : ∀ sequence ∈ commitsOf request after.history, sequence < entry.next)
    (hc : ∀ sequence ∈ commitsOf request after.history, ∀ work ∈ entry.pending,
      sequence < work.id.sequence) : after.Serial request := by
  have hn : ∀ id, id.request = request → ¬ after.Publishable id := by
    rintro id rfl hl
    have := hl.branches_pos
    omega
  refine ⟨by omega, fun known hf => ?_, by rw [history]; exact hs⟩
  rw [ha, Option.some.injEq] at hf
  subst hf
  refine ⟨?_, ?_, hco, hc, ?_, ?_⟩
  · rw [history]
    simp [canonicalState, hle]
  · exact fun id ho hl => absurd hl (hn id ho)
  · exact fun _ _ id ho hl => absurd hl (hn id ho)
  · exact fun id ho hl => absurd hl (hn id ho)

theorem Sound.idle_of_unknown (hs : ledger.Sound) (hi : ledger.requests[request]? = none)
    (hf : ledger.terminal request = none) : ledger.branches request = 0 := by
  have hu : ∀ id : WorkId, id.request = request → ¬ ledger.Issued id := by
    rintro id rfl (⟨entry, ha, -⟩ | he)
    · rw [hi] at ha
      cases ha
    · exact he hf
  simp only [branches, Nat.add_eq_zero_iff, countP_eq_zero, decide_eq_true_eq]
  exact ⟨fun work hl ho => hu _ ho (.inl (hs.preparedActive work hl)),
    fun work hl ho => hu _ ho (hs.flightIssued work hl)⟩

variable {work : Submitted W B O} {right left : List (Submitted W B O)}

section

variable (ht : ledger.outside = left ++ work :: right)
include ht

/-- Work outside the scheduler that is settled leaves one branch fewer. -/
theorem branches_take (hp : after.prepared = ledger.prepared)
    (hf : after.inFlight = ledger.submitted ++ (left ++ right)) (request : RequestId) :
    ledger.branches request =
      after.branches request + if work.id.request = request then 1 else 0 := by
  simp only [branches, hp, hf, (inFlight_perm ht).countP_eq, countP_cons, decide_eq_true_eq]
  omega

theorem narrows_take (prepared : after.prepared = ledger.prepared)
    (flights : after.inFlight = ledger.submitted ++ (left ++ right)) :
    Narrows request ledger after := by
  have fewer : after.inFlight.Sublist ledger.inFlight := by
    rw [flights, inFlight, ht]
    exact (Sublist.refl _).append ((Sublist.refl _).append (sublist_cons_self _ _))
  exact narrows_of_fewer (by rw [prepared]) (fewer.map _) fun work flies _ => fewer.subset flies

end

section Moves

variable {permits : S → Bool}

section

variable (hs : ledger.Serial request)
include hs

theorem Serial.register (hso : ledger.Sound) (state : S)
    (hi : ledger.requests[request]? = none) (hf : ledger.terminal request = none) :
    Serial { ledger with
      requests := ledger.requests.insert request { state, next := 0, pending := [] }
      history := .registered request state :: ledger.history } request := by
  have hr : commitsOf request (.registered request state :: ledger.history) = [] := by
    simp [commitsOf]
  refine hs.restart (hso.idle_of_unknown hi hf)
    ((lookup_insert _ _ _ _).trans (if_pos rfl)) (by simp [Event.canonical]) rfl
    hs.serialized ?_ ?_
  · simp [hr]
  · simp

theorem Serial.access (state : S) (hi : ledger.branches request = 0)
    (ha : ledger.requests[request]? = some entry) :
    Serial { ledger with
      requests := ledger.requests.insert request { entry with state }
      history := .accessed request state :: ledger.history } request :=
  hs.restart hi ((lookup_insert _ _ _ _).trans (if_pos rfl)) (by simp [Event.canonical]) rfl
    hs.serialized (hs.entry entry ha).committedNext
    (hs.entry entry ha).committedQueue

/-- The batch has later sequence numbers than everything before it. -/
theorem Serial.enqueue (hso : ledger.Sound)
    {work : List (W × Option Nat)} (lifecycle : WorkId → Option WorkLifecycle)
    (ready : List RequestId) (accepted : Nat) (ha : ledger.requests[request]? = some entry)
    (hr : entry.next.toNat + work.length ≤ u64Max) :
    Serial { ledger with
      requests := ledger.requests.insert request { entry with
        next := ofNat (entry.next.toNat + work.length)
        pending := entry.pending ++ batchEntries request entry.next.toNat work }
      lifecycle, ready, accepted } request := by
  have hc := hs.entry entry ha
  have had : ∀ queued ∈ batchEntries request entry.next.toNat work,
      entry.next ≤ queued.id.sequence := fun queued hl =>
    le_iff_toNat_le.mpr (mem_batchEntries hr hl).2.1
  have hg : entry.next ≤ ofNat (entry.next.toNat + work.length) := by
    rw [le_iff_toNat_le, toNat_ofNat_u64 hr]
    omega
  refine ⟨hs.single, fun known hf => ?_, hs.serialized⟩
  rw [lookup_insert, if_pos rfl, Option.some.injEq] at hf
  subst hf
  refine ⟨hc.state, hc.branched, ?_, ?_, hc.committedBranch, ?_⟩
  · exact fun sequence hl => lt_of_lt_of_le (hc.committedNext sequence hl) hg
  · intro sequence hl queued hw
    rcases mem_append.mp hw with he | hla
    · exact hc.committedQueue sequence hl queued he
    · exact lt_of_lt_of_le (hc.committedNext sequence hl) (had queued hla)
  · intro id ho hli queued hw
    rcases mem_append.mp hw with he | hla
    · exact hc.branchQueue id ho hli queued he
    · exact lt_of_lt_of_le (hso.publishable_lt ha ho hli) (had queued hla)

end

theorem exists_canonical {history : List (Event S)}
    (hf : canonicalState request history = some state) :
    ∃ event ∈ history, event.canonical request = some state :=
  exists_of_findSome?_eq_some hf

theorem Serial.prepare (hs : ledger.Serial request) (hso : ledger.Sound) {queued : Queued W}
    {pending : List (Queued W)} {prepared : Prepared W B}
    (ha : ledger.requests[request]? = some entry) (hq : entry.pending = queued :: pending)
    (hi : ledger.branches request = 0) (hsa : prepared.id = queued.id)
    (hr : after.requests = ledger.requests.insert request { entry with pending })
    (hg : after.prepared = ledger.prepared ++ [prepared]) (hf : after.inFlight = ledger.inFlight)
    (history : after.history = .branched queued.id entry.state :: ledger.history) :
    after.Serial request := by
  have hcl := hs.entry entry ha
  have hh : queued ∈ entry.pending := by simp [hq]
  have ho := hso.queueOrdered request entry ha
  rw [hq, pairwise_cons] at ho
  have hc : commitsOf request after.history = commitsOf request ledger.history := by
    rw [history, commitsOf_cons rfl]
  have hon : ∀ id : WorkId, id.request = request → after.Publishable id → id = queued.id := by
    rintro id rfl (⟨work, hl, rfl⟩ | hfl)
    · rw [hg, mem_append, mem_singleton] at hl
      rcases hl with he | rfl
      · have := Publishable.branches_pos (.inl ⟨work, he, rfl⟩ : ledger.Publishable work.id)
        omega
      · exact hsa
    · rw [hf] at hfl
      have := Publishable.branches_pos (.inr hfl : ledger.Publishable id)
      omega
  refine ⟨?_, fun known hfo => ?_, ?_⟩
  · have hco : [prepared].countP (fun work => work.id.request = request) ≤ 1 := countP_le_length
    simp only [branches, hg, hf, countP_append] at hi ⊢
    omega
  · rw [hr, lookup_insert, if_pos rfl, Option.some.injEq] at hfo
    subst hfo
    refine ⟨?_, ?_, ?_, ?_, ?_, ?_⟩
    · rw [history, canonicalState_cons rfl, hcl.state]
    · intro id hm hli
      rw [hon id hm hli, history]
      exact ⟨[], ledger.history, rfl, by simp⟩
    · rw [hc]
      exact hcl.committedNext
    · intro sequence hl work hw
      rw [hc] at hl
      exact hcl.committedQueue sequence hl work (by simp [hq, hw])
    · intro sequence hl id hm hli
      rw [hc] at hl
      rw [hon id hm hli]
      exact hcl.committedQueue sequence hl queued hh
    · intro id hm hli work hw
      rw [hon id hm hli]
      exact ho.1 work hw
  · rw [history]
    exact hs.serialized

theorem Serial.commit (hs : ledger.Serial request) (hso : ledger.Sound) {success : Bool}
    (ht : ledger.outside = left ++ work :: right) (hp : work.disposition = .publish)
    (ho : work.id.request = request) (ha : ledger.requests[request]? = some entry)
    (hr : after.requests = ledger.requests.insert request { entry with state })
    (hpr : after.prepared = ledger.prepared)
    (hf : after.inFlight = ledger.submitted ++ (left ++ right))
    (history : after.history = .committed work.id entry.state state success :: ledger.history) :
    after.Serial request := by
  have hc := hs.entry entry ha
  have hsi := hs.single
  have hli : ledger.Publishable work.id := .inr ⟨work, mem_append_right _ (by simp [ht]), rfl, hp⟩
  have hco : commitsOf request after.history =
      work.id.sequence :: commitsOf request ledger.history := by
    simp [history, commitsOf, ho]
  have hi := branches_take ht hpr hf request
  rw [if_pos ho] at hi
  have hre : after.requests[request]? = some { entry with state } := by
    rw [hr, lookup_insert, if_pos rfl]
  refine hs.restart (by omega) hre (by simp [Event.canonical, ho]) history
    ⟨fun _ => ?_, hs.serialized⟩ ?_ ?_
  · refine ⟨?_, hc.branched work.id ho hli, ?_⟩
    · rw [ho]
      exact hc.state
    · rw [ho]
      exact fun sequence hl => hc.committedBranch sequence hl work.id ho hli
  · intro sequence hl
    rw [hco] at hl
    rcases mem_cons.mp hl with rfl | he
    · exact (hso.publishable_lt ha ho hli : work.id.sequence < entry.next)
    · exact hc.committedNext sequence he
  · intro sequence hl queued hw
    rw [hco] at hl
    rcases mem_cons.mp hl with rfl | he
    · exact hc.branchQueue work.id ho hli queued hw
    · exact hc.committedQueue sequence he queued hw

theorem narrows_close {closed : RequestId → Bool} (closes : Closes closed ledger after) :
    Narrows request ledger after := by
  obtain ⟨now, submitted⟩ := closes.submitted
  refine narrows_of_fewer ?_ ?_ fun work flies publishes => ?_
  · rw [closes.prepared]
    exact filter_sublist
  · simp only [inFlight, submitted, closes.outside, map_append, map_abandonIf_id]
    exact Sublist.refl _
  · rw [inFlight, submitted, closes.outside, mem_append, mem_map] at flies
    rcases flies with ⟨original, flies, rfl⟩ | flies
    · rw [abandonIf_of_open (.inl (abandonIf_publish publishes).1)]
      exact mem_append_left _ flies
    · exact mem_append_right _ flies

theorem Serial.close (hse : ledger.Serial request) {closed : RequestId → Bool}
    (hc : Closes closed ledger after) : after.Serial request := by
  refine hse.shrink (narrows_close hc) (fun entry ha => ?_) (.inl hc.history)
  rw [hc.requests] at ha
  split at ha
  · cases ha
  · exact ⟨entry, ha, rfl, le_refl _, fun _ => id⟩

theorem Serial.still (hs : ledger.Serial request) (narrows : Narrows request ledger after)
    (hr : after.requests = ledger.requests) (history : after.history = ledger.history) :
    after.Serial request := by
  refine hs.shrink narrows (fun entry ha => ?_) (.inl history)
  rw [hr] at ha
  exact ⟨entry, ha, rfl, le_refl _, fun _ => id⟩

/-- A request is not affected by what happens to another one. -/
theorem Serial.elsewhere (hs : ledger.Serial request) (narrows : Narrows request ledger after)
    {replacement : Request W S} (different : other ≠ request)
    (hr : after.requests = ledger.requests.insert other replacement)
    (history : after.history = ledger.history ∨
      ∃ event, event.canonical request = none ∧ after.history = event :: ledger.history) :
    after.Serial request :=
  hs.shrink narrows (entries_of_insert different.symm hr) history

theorem narrows_prepare {prepared : Prepared W B} (different : prepared.id.request ≠ request)
    (added : after.prepared = ledger.prepared ++ [prepared])
    (flights : after.inFlight = ledger.inFlight) : Narrows request ledger after := by
  constructor
  · simp [branches, added, flights, different]
  · rintro id own (⟨work, waiting, rfl⟩ | flies)
    · rw [added, mem_append, mem_singleton] at waiting
      rcases waiting with waiting | rfl
      · exact .inl ⟨work, waiting, rfl⟩
      · exact absurd own different
    · exact .inr (flights ▸ flies)

theorem narrows_submit {prepared : Prepared W B} {rest : List (Prepared W B)}
    (front : ledger.prepared = prepared :: rest) (same : work.id = prepared.id)
    (taken : after.prepared = rest) (flights : after.inFlight = ledger.inFlight ++ [work]) :
    Narrows request ledger after := by
  constructor
  · simp only [branches, flights, taken, front, countP_append, countP_cons, countP_nil, same]
    omega
  · rintro id - (⟨other, waiting, rfl⟩ | ⟨other, flies, rfl, publishes⟩)
    · exact .inl ⟨other, by simp [front, show other ∈ rest from taken ▸ waiting], rfl⟩
    · rw [flights, mem_append, mem_singleton] at flies
      rcases flies with flies | rfl
      · exact .inr ⟨other, flies, rfl, publishes⟩
      · exact .inl ⟨prepared, by simp [front], same.symm⟩

theorem narrows_condemn (taken : ledger.outside = left ++ work :: right)
    (prepared : after.prepared = ledger.prepared) (flights : after.inFlight =
      ledger.submitted ++ (left ++ { work with disposition := .fail } :: right)) :
    Narrows request ledger after := by
  refine narrows_of_fewer (by rw [prepared]) (by rw [flights]; simp [inFlight, taken]) ?_
  intro other flies publishes
  simp only [flights, mem_append, mem_cons] at flies
  simp only [inFlight, taken, mem_append, mem_cons]
  rcases flies with submitted | before | rfl | behind
  · exact .inl submitted
  · exact .inr (.inl before)
  · cases publishes
  · exact .inr (.inr (.inr behind))

/-- What comes back to the scheduler loses the right to publish if its request is gone. -/
theorem narrows_attach {closed : RequestId → Bool} {now : Nat} (taken : ledger.submitted = [])
    (prepared : after.prepared = ledger.prepared)
    (flights : after.inFlight = ledger.outside.map (abandonIf closed now)) :
    Narrows request ledger after := by
  refine narrows_of_fewer (by rw [prepared]) ?_ ?_
  · rw [flights, map_abandonIf_id, inFlight, taken, nil_append]
  · intro work flies publishes
    rw [flights] at flies
    obtain ⟨original, outside, rfl⟩ := mem_map.mp flies
    rw [abandonIf_of_open (.inl (abandonIf_publish publishes).1)]
    exact mem_append_right _ outside

theorem Serial.reject (hs : ledger.Serial request) {queued : Queued W} {pending : List (Queued W)}
    (narrows : Narrows request ledger after) (active : ledger.requests[other]? = some entry)
    (queue : entry.pending = queued :: pending)
    (requests : after.requests = ledger.requests.insert other { entry with pending })
    (history : after.history = ledger.history) : after.Serial request := by
  refine hs.shrink narrows (fun known found => ?_) (.inl history)
  rw [requests, lookup_insert] at found
  split at found
  · rename_i same
    cases found
    refine ⟨entry, same ▸ active, rfl, le_refl _, fun work waiting => ?_⟩
    rw [queue]
    exact mem_cons_of_mem _ waiting
  · exact ⟨known, found, rfl, le_refl _, fun _ => id⟩

/-- One move keeps a request serial as long as its states permit no parallel branches. -/
theorem Serial.transition (hs : ledger.Serial request) (hso : ledger.Sound)
    (hst : Transition permits ledger after)
    (hsl : ∀ event ∈ ledger.history, ∀ state, event.canonical request = some state →
      permits state = false) : after.Serial request := by
  cases hst with
  | register other state settled inactive fresh room =>
    by_cases own : other = request
    · subst own
      exact hs.register hso state inactive fresh
    · exact hs.elsewhere (narrows_of_eq rfl rfl) own rfl
        (.inr ⟨.registered other state, if_neg own, rfl⟩)
  | access other entry state settled idle active =>
    by_cases own : other = request
    · subst own
      exact hs.access state idle active
    · exact hs.elsewhere (narrows_of_eq rfl rfl) own rfl
        (.inr ⟨.accessed other state, if_neg own, rfl⟩)
  | enqueue other entry work lifecycle settled active room representable marked =>
    by_cases own : other = request
    · subst own
      exact hs.enqueue hso _ _ _ active representable
    · exact hs.elsewhere (narrows_of_eq rfl rfl) own rfl (.inl rfl)
  | rotate ready same => exact hs.still (narrows_of_eq rfl rfl) rfl rfl
  | prepare other rest entry queued pending prepared settled front active queue permitted _ same =>
    by_cases own : other = request
    · subst own
      have idle : ledger.branches other = 0 := by
        refine permitted.resolve_right ?_
        obtain ⟨event, recorded, canonical⟩ := exists_canonical (hs.entry entry active).state
        rw [hsl event recorded _ canonical]
        simp
      exact hs.prepare hso active queue idle same rfl rfl rfl rfl
    · have different : prepared.id.request ≠ request := by
        rwa [same, (hso.inQueue_head active queue).1]
      exact hs.elsewhere (narrows_prepare different rfl rfl) own rfl
        (.inr ⟨.branched queued.id entry.state, rfl, rfl⟩)
  | reject other rest entry queued pending settled front active queue =>
    exact hs.reject (narrows_of_eq rfl rfl) active queue rfl rfl
  | submit prepared rest work settled front room same publishes =>
    exact hs.still (narrows_submit front same rfl (by simp [inFlight, settled])) rfl rfl
  | refuse prepared rest settled front =>
    have fewer : rest.Sublist ledger.prepared := front ▸ sublist_cons_self _ _
    exact hs.still (narrows_of_fewer fewer (Sublist.refl _) fun _ flies _ => flies) rfl rfl
  | close closed closes => exact hs.close closes
  | detach settled => exact hs.still (narrows_of_eq rfl (by simp [inFlight, settled])) rfl rfl
  | settle left right work stage taken | free left right work cancelledAt taken =>
    exact hs.still (narrows_take taken rfl rfl) rfl rfl
  | commit left right work entry state success taken publishes active =>
    by_cases own : work.id.request = request
    · subst own
      exact hs.commit hso taken publishes rfl active rfl rfl rfl rfl
    · exact hs.elsewhere (narrows_take taken rfl rfl) own rfl
        (.inr ⟨.committed work.id entry.state state success, if_neg own, rfl⟩)
  | condemn left right work taken => exact hs.still (narrows_condemn taken rfl rfl) rfl rfl
  | attach now lifecycle taken marked =>
    exact hs.still (narrows_attach taken rfl (append_nil _)) rfl rfl

theorem Transition.history_suffix (hs : Transition permits ledger after) :
    ledger.history <:+ after.history := by
  cases hs with
  | register | access | prepare | commit => exact suffix_cons _ _
  | enqueue | rotate | reject | submit | refuse | detach | settle | free | condemn | attach =>
    exact suffix_refl _
  | close closed hc => exact hc.history ▸ suffix_refl _

theorem Reaches.history_suffix (hm : Reaches permits ledger after) :
    ledger.history <:+ after.history := by
  induction hm with
  | refl => exact suffix_refl _
  | tail _ hs ih => exact ih.trans hs.history_suffix

theorem Serial.reaches (hse : ledger.Serial request) (hso : ledger.Sound)
    (hm : Reaches permits ledger after)
    (hs : ∀ event ∈ after.history, ∀ state, event.canonical request = some state →
      permits state = false) : after.Serial request := by
  induction hm with
  | refl => exact hse
  | tail he hst ih =>
    have hb := fun event hl => hs event (hst.history_suffix.subset hl)
    exact (ih hb).transition (hso.reaches he) hst hb

theorem Frees.history (hf : Frees other ledger after) : after.history = ledger.history := by
  cases hf <;> rfl

theorem Serial.frees (hs : ledger.Serial request) (hfr : Frees other ledger after) :
    after.Serial request := by
  cases hfr with
  | release entry requests hse ha hd hi hr =>
    refine hs.shrink (narrows_of_eq rfl rfl) (fun known hf => ?_) (.inl rfl)
    rw [hr] at hf
    split at hf
    · cases hf
    · exact ⟨known, hf, rfl, le_refl _, fun _ => id⟩
  | forget => exact hs.still (narrows_of_eq rfl rfl) rfl rfl

end Moves

end Ledger

section Runs

variable (env : Environment Ω W S B O)
variable {m : Machine Ω W S B O} {request : RequestId}

def Sequential (request : RequestId) (history : List (Event S)) : Prop :=
  ∀ event ∈ history, ∀ state, event.canonical request = some state →
    env.permitsParallelBranches state = false

theorem Reachable.serial (hr : Reachable env m)
    (hs : Sequential env request m.history) : (m.ledger []).Serial request := by
  induction hr with
  | new world hc =>
    have he := Scheduler.new_eq hc
    subst he
    refine ⟨?_, ?_, trivial⟩
    · simp [Ledger.branches, Machine.ledger, inFlight]
    · simp [Machine.ledger]
  | @step m hre command ih =>
    have hso := hre.sound
    rcases step_moves env command hso with hm | ⟨_, _, hf⟩
    · have hb : Sequential env request m.history := fun event hl =>
        hs event (Reaches.history_suffix hm |>.subset hl)
      exact (ih hb).reaches hso hm hs
    · have hb : Sequential env request m.history := by
        rwa [show (Scheduling.step env m command).history = m.history from hf.history] at hs
      exact (ih hb).frees hf

/-- No lost update. At every `commit_branch` call for a request whose states permit no parallel
branches, the canonical state is the one the branch was created from, nothing used that state in
between, and the sequence number exceeds all those committed since the request was registered. -/
theorem no_lost_update (reachable : Reachable env m) {id : WorkId} {before after : S}
    {success : Bool} {newer older : List (Event S)}
    (sequential : Sequential env id.request m.history)
    (commit : m.history = newer ++ .committed id before after success :: older) :
    canonicalState id.request older = some before ∧
      (∃ between earlier, older = between ++ .branched id before :: earlier ∧
        ∀ event ∈ between, event.canonical id.request = none) ∧
      ∀ sequence ∈ commitsOf id.request older, sequence < id.sequence := by
  have hc := (reachable.serial env sequential).serialized.clean commit
  exact ⟨hc.state, hc.branched, hc.ordered⟩

/-- A second commit of one request over the state its first commit left. -/
theorem no_lost_update_counting :
    canonicalState ⟨0⟩ (run countingEnvironment countingStart (countingRun ++ [.pollCompletions 0,
      .prepareBounded 1 0, .submitPrepared 0])).history = some 1 := by
  have hc : (run countingEnvironment countingStart (countingRun ++ [.pollCompletions 0,
        .prepareBounded 1 0, .submitPrepared 0, .pollCompletions 0])).history =
      [] ++ .committed ⟨⟨0⟩, 1⟩ 1 2 true :: (run countingEnvironment countingStart
        (countingRun ++ [.pollCompletions 0, .prepareBounded 1 0, .submitPrepared 0])).history := by
    decide
  exact (no_lost_update countingEnvironment
    (countingStart_reachable.run countingEnvironment _) (fun _ _ _ _ => rfl) hc).1

end Runs

end Eredu.Scheduling
