import Eredu.Scheduling.Preservation

/-!
# The scheduler follows the ledger protocol

Every operation of the scheduler, also one that stops with an error, moves its
ledger by a sequence of `Ledger.Transition`s. The exceptions are `release` and
`forgetTerminal`, which give an identity up.
-/

namespace Eredu.Scheduling

open Std Ledger List Scheduler Machine TreeMap

variable {Ω W S B O : Type}
variable (env : Environment Ω W S B O)
variable {m : Machine Ω W S B O}

@[simp] theorem lookup_markAll (lifecycle : TreeMap WorkId WorkLifecycle) (ids : List WorkId)
    (stage : WorkLifecycle) (id : WorkId) :
    (markAll lifecycle ids stage)[id]? = if id ∈ ids then some stage else lifecycle[id]? := by
  induction ids generalizing lifecycle with
  | nil => simp [markAll]
  | cons first rest ih =>
    have hs := ih (lifecycle.insert first stage)
    simp only [markAll, foldl_cons] at hs ⊢
    rw [hs, lookup_insert]
    by_cases hl : id ∈ rest <;> by_cases hh : id = first <;> simp [hh]

/-- The submissions that `abandonPublished` marks. -/
theorem mem_publishing (submitted : List (Submitted W B O))
    (selected : RequestId → Bool) (id : WorkId) : id ∈ (submitted.filter fun work =>
        selected work.id.request && work.disposition.isPublish).map (·.id) ↔
      ∃ work ∈ submitted, work.id = id ∧ selected id.request = true ∧
        work.disposition = .publish := by
  simp only [mem_map, mem_filter, Bool.and_eq_true, Disposition.isPublish_iff]
  constructor
  · rintro ⟨work, ⟨hl, hc, hp⟩, rfl⟩
    exact ⟨work, hl, rfl, hc, hp⟩
  · rintro ⟨work, hl, rfl, hc, hp⟩
    exact ⟨work, ⟨hl, hc, hp⟩, rfl⟩

variable (stage : WorkLifecycle)

/-- The machine after a step that touched only the world, telemetry and the lifecycles of `ids`,
which became `stage` or failed. -/
structure Discards (ids : List WorkId) (before after : Machine Ω W S B O) : Prop where
  ledger : ∀ outside, after.ledger outside =
    { before.ledger outside with lifecycle id := after.scheduler.lifecycle[id]? }
  poisoned : after.scheduler.poisoned = before.scheduler.poisoned
  touched : ∀ id ∈ ids, after.scheduler.lifecycle[id]? = some stage ∨
    after.scheduler.lifecycle[id]? = some .failed
  untouched : ∀ id ∉ ids, after.scheduler.lifecycle[id]? = before.scheduler.lifecycle[id]?

theorem discardBranches_discards (works : List (Prepared W B)) (m : Machine Ω W S B O) :
    Discards stage (works.map (·.id)) m (discardBranches env stage works m).2 := by
  induction works generalizing m with
  | nil => exact ⟨fun _ => rfl, rfl, by simp, fun _ _ => rfl⟩
  | cons work rest ih =>
    -- After the first entry is marked `first`, the rest either keeps that mark or fails it again.
    have hs : ∀ (first : WorkLifecycle) (next : Machine Ω W S B O),
        first = stage ∨ first = .failed →
        (∀ outside, next.ledger outside =
          { m.ledger outside with lifecycle id := next.scheduler.lifecycle[id]? }) →
        next.scheduler.poisoned = m.scheduler.poisoned →
        (∀ id : WorkId, next.scheduler.lifecycle[id]? =
          if id = work.id then some first else m.scheduler.lifecycle[id]?) →
        Discards stage ((work :: rest).map (·.id)) m (discardBranches env stage rest next).2 := by
      intro first next hal hle hp hma
      have hl := ih next
      refine ⟨fun outside => ?_, hl.poisoned.trans hp, ?_, ?_⟩
      · rw [hl.ledger, hle]
      · intro id hm
        by_cases hag : id ∈ rest.map (·.id)
        · exact hl.touched id hag
        · have hh : id = work.id := by simpa [hag] using hm
          rw [hl.untouched id hag, hma, if_pos hh]
          exact hal.imp (congrArg some) (congrArg some)
      · intro id ha
        simp only [map_cons, mem_cons, not_or] at ha
        rw [hl.untouched id ha.2, hma, if_neg ha.1]
    simp only [discardBranches, discard]
    cases (env.discardBranch work.branch m.world).1 with
    | ok _ =>
      exact hs stage _ (.inl rfl) (fun _ => rfl) rfl fun id => by
        simp [update, setLifecycle, lookup_insert]
    | error _ =>
      exact hs .failed _ (.inr rfl) (fun _ => rfl) rfl fun id => by
        simp [update, setLifecycle, addFailedWork, lookup_insert]

variable (request : RequestId)

/-- What `discardPreparedForRequest` returns: the prepared work of one request has left and its
identities are abandoned or failed. -/
structure DiscardsPrepared (before : Machine Ω W S B O)
    (result : (Nat × Option String) × Machine Ω W S B O) : Prop where
  count : result.1.1 = before.scheduler.prepared.countP fun work => work.id.request = request
  ledger : ∀ outside, result.2.ledger outside = { before.ledger outside with
    prepared := before.scheduler.prepared.filter fun work => work.id.request ≠ request
    lifecycle id := result.2.scheduler.lifecycle[id]? }
  poisoned : result.2.scheduler.poisoned = before.scheduler.poisoned
  touched : ∀ id ∈ (before.scheduler.prepared.filter fun work =>
      work.id.request = request).map (·.id),
    result.2.scheduler.lifecycle[id]? = some .abandoned ∨
      result.2.scheduler.lifecycle[id]? = some .failed
  untouched : ∀ id ∉ (before.scheduler.prepared.filter fun work =>
      work.id.request = request).map (·.id),
    result.2.scheduler.lifecycle[id]? = before.scheduler.lifecycle[id]?

theorem discardPreparedForRequest_discards (m : Machine Ω W S B O) :
    DiscardsPrepared request m (discardPreparedForRequest env request m) := by
  have hd := discardBranches_discards env .abandoned
    (m.scheduler.prepared.filter fun work => work.id.request = request) m
  unfold discardPreparedForRequest
  refine ⟨countP_eq_length_filter.symm, fun outside => ?_, hd.poisoned, hd.touched, hd.untouched⟩
  have hl := hd.ledger outside
  simp only [ledger, Ledger.mk.injEq] at hl ⊢
  simp [update, hl]

structure Withdraws (entry : Request W S) (stage : WorkLifecycle)
    (before after : Machine Ω W S B O) : Prop where
  ledger : ∀ outside, after.ledger outside = { before.ledger outside with
    requests := before.scheduler.requests.erase request
    ready := before.scheduler.ready.filter fun other => other ≠ request
    prepared := before.scheduler.prepared.filter fun work => work.id.request ≠ request
    lifecycle id := after.scheduler.lifecycle[id]?
    accepted := before.scheduler.acceptedWork - (entry.pending.length +
      before.scheduler.prepared.countP fun work => work.id.request = request) }
  poisoned : after.scheduler.poisoned = before.scheduler.poisoned
  touched : ∀ id, id ∈ entry.pending.map (·.id) ∨
      id ∈ (before.scheduler.prepared.filter fun work => work.id.request = request).map (·.id) →
    after.scheduler.lifecycle[id]? = some stage ∨
      after.scheduler.lifecycle[id]? = some .abandoned ∨
      after.scheduler.lifecycle[id]? = some .failed
  untouched : ∀ id, id ∉ entry.pending.map (·.id) →
    id ∉ (before.scheduler.prepared.filter fun work => work.id.request = request).map (·.id) →
    after.scheduler.lifecycle[id]? = before.scheduler.lifecycle[id]?

variable {before after : Machine Ω W S B O} {request : RequestId} {entry : Request W S}
  {stage : WorkLifecycle}

theorem Withdraws.history
    (hw : Withdraws request entry stage before after) : after.history = before.history :=
  congrArg Ledger.history (hw.ledger [])

theorem withdrawRequest_withdraws (request : RequestId) (entry : Request W S)
    (stage : WorkLifecycle) (m : Machine Ω W S B O) :
    Withdraws request entry stage m (withdrawRequest env request entry stage m).2 := by
  have hd := discardPreparedForRequest_discards env request
    (m.update (·.removeRequest request entry stage))
  unfold withdrawRequest
  generalize discardPreparedForRequest env request _ = result at hd ⊢
  refine ⟨fun outside => ?_, hd.poisoned, ?_, ?_⟩
  · have hl := hd.ledger outside
    have hc := hd.count
    simp only [ledger, Ledger.mk.injEq, removeRequest] at hl hc
    simp [ledger, update, releaseAccepted, hl, hc]
  · intro id hli
    by_cases hp : id ∈ (m.scheduler.prepared.filter fun work =>
        work.id.request = request).map (·.id)
    · exact .inr (hd.touched id hp)
    · have hq : id ∈ entry.pending.map (·.id) := hli.resolve_right hp
      refine .inl ((hd.untouched id hp).trans ?_)
      simp only [update, removeRequest, lookup_markAll, if_pos hq]
  · intro id hun hu
    refine (hd.untouched id hu).trans ?_
    simp only [update, removeRequest, lookup_markAll, if_neg hun]

variable {outside : List (Submitted W B O)} {final : Ledger W S B O}

theorem Withdraws.closes {withdrawn : Machine Ω W S B O} (status : RequestStatus) (now : Nat)
    (lifecycle : WorkId → Option WorkLifecycle) (hw : Withdraws request entry stage m withdrawn)
    (hso : (m.ledger outside).Sound) (hac : m.scheduler.requests[request]? = some entry)
    (hal : stage = .abandoned ∨ stage = .failed) (hma : ∀ id, lifecycle id =
      if id ∈ (m.scheduler.submitted.filter fun work =>
        decide (work.id.request = request) && work.disposition.isPublish).map (·.id)
      then some .abandoned else withdrawn.scheduler.lifecycle[id]?)
    (hc : final = { withdrawn.ledger outside with
      submitted := m.scheduler.submitted.map (abandonIf (fun other => other = request) now)
      terminal := Function.update (fun other => m.scheduler.terminal[other]?) request (some status)
      lifecycle }) : Closes (fun other => other = request) (m.ledger outside) final := by
  have how := hso.queueOwned request entry hac
  have hq : ∀ id : WorkId, id.request = request →
      ((m.ledger outside).InQueue id ↔ id ∈ entry.pending.map (·.id)) := by
    intro id ho
    rw [inQueue_of_active hac ho, mem_map]
  have hpr : ∀ id : WorkId, id.request = request →
      ((m.ledger outside).InPrepared id ↔
        id ∈ (m.scheduler.prepared.filter fun work => work.id.request = request).map (·.id)) := by
    rintro id rfl
    simp only [mem_map, mem_filter, decide_eq_true_eq]
    constructor
    · rintro ⟨work, hl, rfl⟩
      exact ⟨work, ⟨hl, rfl⟩, rfl⟩
    · rintro ⟨work, ⟨hl, -⟩, hs⟩
      exact ⟨work, hl, hs⟩
  rw [hw.ledger] at hc
  subst hc
  refine ⟨rfl, ?_, ?_, ?_, ?_, ?_, ⟨now, rfl⟩, rfl, ?_, ?_, ?_, ?_, rfl⟩
  · intro other
    simp only [Machine.ledger, lookup_erase, decide_eq_true_eq]
  · intro other known hs _
    have : other = request := by simpa using hs
    simp [this]
  · rintro other (hd | ha)
    · have : other ≠ request := by simpa using hd
      simp [Machine.ledger, this]
    · have : other ≠ request := by
        rintro rfl
        cases hac.symm.trans ha
      simp [Machine.ledger, this]
  · simp [Machine.ledger]
  · simp [Machine.ledger]
  · simp only [Machine.ledger, total_filter_singleton queueLength hac]
    rfl
  · intro id ho hwa
    have ho : id.request = request := by simpa using ho
    rw [hq id ho, hpr id ho] at hwa
    show lifecycle id = _ ∨ lifecycle id = _
    rw [hma]
    split
    · exact .inl rfl
    rcases hw.touched id hwa with hs' | hs' | hs'
    · rcases hal with rfl | rfl
      · exact .inl hs'
      · exact .inr hs'
    · exact .inl hs'
    · exact .inr hs'
  · intro work hl ho hp
    show lifecycle work.id = _
    rw [hma, if_pos]
    exact (mem_publishing _ (fun other => other = request) _).mpr ⟨work, hl, rfl, ho, hp⟩
  · intro id ha
    show lifecycle id = _
    rw [hma, if_neg]
    · refine hw.untouched id (fun hl => ?_) fun hl => ?_
      · obtain ⟨work, hm, rfl⟩ := mem_map.mp hl
        have ho := (how work hm).1
        exact (ha (by simpa using ho)).1 ((hq _ ho).mpr hl)
      · obtain ⟨work, hm, rfl⟩ := mem_map.mp hl
        have ho : work.id.request = request := by simpa using (mem_filter.mp hm).2
        exact (ha (by simpa using ho)).2.1 ((hpr _ ho).mpr hl)
    · rw [mem_publishing _ fun other => other = request]
      rintro ⟨work, hl, hs, ho, hp⟩
      exact (ha ho).2.2 work hl hp hs

variable (request) (now : Nat)

theorem failRequest_reaches (hs : (m.ledger outside).Sound) :
    Reaches env.permitsParallelBranches (m.ledger outside)
      ((failRequest env request now m).ledger outside) := by
  unfold failRequest
  cases ha : m.scheduler.requests[request]? with
  | none => exact .refl
  | some entry =>
    have hw := withdrawRequest_withdraws env request entry .failed m
    have hl := hw.ledger outside
    simp only [ledger, Ledger.mk.injEq] at hl
    refine .single (.close _ (hw.closes .failed now _ hs ha (.inr rfl) (fun _ => rfl) ?_))
    simp [ledger, update, abandonPublished, hl, abandonIf,
      lookup_insert, Function.update_apply, funext_iff]

theorem failRequest_history (m : Machine Ω W S B O) :
    (failRequest env request now m).history = m.history := by
  unfold failRequest
  split
  · rfl
  · rename_i entry ha
    exact (withdrawRequest_withdraws env request entry .failed m).history

theorem failRequest_submitted (hd : m.scheduler.submitted = []) :
    (failRequest env request now m).scheduler.submitted = [] := by
  unfold failRequest
  split
  · exact hd
  rename_i entry ha
  have hl := (withdrawRequest_withdraws env request entry .failed m).ledger []
  simp only [ledger, Ledger.mk.injEq] at hl
  simp [update, abandonPublished, hl, hd]

variable {request}

theorem cancelEntry_reaches (cause : CancellationCause) (now : Nat) (hs : (m.ledger []).Sound)
    (ha : m.scheduler.requests[request]? = some entry) :
    Reaches env.permitsParallelBranches (m.ledger [])
      ((cancelEntry env request entry cause now m).2.ledger []) := by
  have hw := withdrawRequest_withdraws env request entry .abandoned m
  unfold cancelEntry
  generalize withdrawRequest env request entry .abandoned m = result at hw ⊢
  obtain ⟨⟨discarded, error⟩, withdrawn⟩ := result
  have hl := hw.ledger []
  simp only [ledger, Ledger.mk.injEq] at hl
  cases cause with
  | explicit =>
    refine .single (.close _ (hw.closes
      (if error.isSome then .failed else .cancelled) now _ hs ha (.inl rfl)
      (fun _ => rfl) ?_))
    simp [ledger, update, abandonPublished, hl, abandonIf,
      lookup_insert, Function.update_apply, funext_iff, updateAbandonedResourcePeak]
  | deadline =>
    refine .single (.close _ (hw.closes
      (if error.isSome then .failed else .deadlineExceeded) now _ hs ha (.inl rfl)
      (fun _ => rfl) ?_))
    simp [ledger, update, abandonPublished, hl, abandonIf,
      lookup_insert, Function.update_apply, funext_iff, updateAbandonedResourcePeak]

theorem cancelEntry_history (request : RequestId) (entry : Request W S)
    (cause : CancellationCause) (now : Nat) (m : Machine Ω W S B O) :
    (cancelEntry env request entry cause now m).2.history = m.history := by
  have hw := withdrawRequest_withdraws env request entry .abandoned m
  unfold cancelEntry
  generalize withdrawRequest env request entry .abandoned m = result at hw ⊢
  cases cause <;> exact hw.history

/-- The limits and the number of submissions stay. -/
structure Curbs (before after : Machine Ω W S B O) : Prop where
  limits : after.scheduler.limits = before.scheduler.limits
  length : after.scheduler.submitted.length = before.scheduler.submitted.length

instance : IsPreorder (Machine Ω W S B O) Curbs where
  refl _ := ⟨rfl, rfl⟩
  trans _ _ _ first second := ⟨second.limits.trans first.limits, second.length.trans first.length⟩

theorem cancelEntry_curbs (request : RequestId) (entry : Request W S)
    (cause : CancellationCause) (now : Nat) (m : Machine Ω W S B O) :
    Curbs m (cancelEntry env request entry cause now m).2 := by
  have hw := withdrawRequest_withdraws env request entry .abandoned m
  unfold cancelEntry
  have hl := hw.ledger []
  simp only [ledger, Ledger.mk.injEq] at hl
  cases cause <;>
  · refine ⟨hl.1, ?_⟩
    simp [update, abandonPublished, updateAbandonedResourcePeak, hl]

theorem foldl_insert_lookup (entries : List (RequestId × Request W S))
    (terminal : TreeMap RequestId RequestStatus) (request : RequestId) :
    (entries.foldl (fun terminal (request, _) => terminal.insert request .failed) terminal)[request]? =
      if request ∈ entries.map (·.1) then some .failed else terminal[request]? := by
  induction entries generalizing terminal with
  | nil => simp
  | cons entry rest ih =>
    rw [foldl_cons, ih, lookup_insert]
    by_cases hl : request ∈ rest.map (·.1) <;> by_cases hh : request = entry.1 <;>
      simp [hl]

theorem length_queuedIds (s : Scheduler W S B O) :
    s.queuedIds.length = total queueLength s.requests := by
  simp [queuedIds, total, queueLength]

theorem mem_queuedIds (hs : (m.ledger []).Sound) (id : WorkId) :
    id ∈ m.scheduler.queuedIds ↔ (m.ledger []).InQueue id := by
  simp only [queuedIds, mem_flatMap, mem_map]
  constructor
  · rintro ⟨⟨request, entry⟩, hl, work, hm, rfl⟩
    have hf := mem_toList_iff_getElem?_eq_some.mp hl
    have ho := (hs.queueOwned request entry hf work hm).1
    exact ⟨entry, ho ▸ hf, work, hm, rfl⟩
  · rintro ⟨entry, hf, work, hm, hsa⟩
    exact ⟨(id.request, entry), mem_toList_iff_getElem?_eq_some.mpr hf, work, hm, hsa⟩

theorem Discards.closes {discarded : Machine Ω W S B O} (now : Nat)
    (hd : Discards .failed (m.scheduler.prepared.map (·.id))
      (m.update (·.failAllRequests)) discarded)
    (hso : (m.ledger []).Sound)
    (hc : final = { discarded.ledger [] with
      submitted := m.scheduler.submitted.map (abandonIf (fun _ => true) now)
      lifecycle id :=
        if id ∈ (m.scheduler.submitted.filter fun work =>
          true && work.disposition.isPublish).map (·.id)
        then some .abandoned else discarded.scheduler.lifecycle[id]?
      accepted := m.scheduler.acceptedWork -
        (m.scheduler.queuedIds.length + m.scheduler.prepared.length) }) :
    Closes (fun _ => true) (m.ledger []) final := by
  have ht : ∀ request, final.terminal request =
      if request ∈ m.scheduler.requests.toList.map (·.1) then some .failed
      else m.scheduler.terminal[request]? := by
    intro request
    rw [hc, hd.ledger]
    exact foldl_insert_lookup m.scheduler.requests.toList m.scheduler.terminal request
  have hk : ∀ request : RequestId, request ∈ m.scheduler.requests.toList.map (·.1) ↔
      m.scheduler.requests[request]? ≠ none := by
    intro request
    simp
  have hst : ∀ id, final.lifecycle id =
      if id ∈ (m.scheduler.submitted.filter fun work =>
        true && work.disposition.isPublish).map (·.id)
      then some .abandoned else discarded.scheduler.lifecycle[id]? := by
    intro id
    rw [hc]
  rw [hd.ledger] at hc
  refine ⟨?_, ?_, ?_, ?_, ?_, ?_, ⟨now, ?_⟩, ?_, ?_, ?_, ?_, ?_, ?_⟩
  · rw [hc]; rfl
  · intro request
    rw [hc]
    exact getElem?_emptyc
  · intro request entry _ hf
    rw [ht, if_pos ((hk request).mpr (by rw [show m.scheduler.requests[request]? = _ from hf]; simp))]
    simp
  · rintro request (hi | ha)
    · cases hi
    · rw [ht, if_neg fun hl => (hk request).mp hl ha]
      rfl
  · rw [hc]
    simp [Machine.ledger, update, failAllRequests]
  · rw [hc]
    simp [Machine.ledger, update, failAllRequests]
  · rw [hc]; rfl
  · rw [hc]; rfl
  · rw [hc, length_queuedIds]
    have he : total queueLength (m.scheduler.requests.filter fun _ _ => true) =
        total queueLength m.scheduler.requests := total_congr _ fun request => by
      rw [lookup_filter _ fun _ => true]
      rfl
    simp [Machine.ledger, he]
  · intro id _ hw
    rw [hst]
    split
    · exact .inl rfl
    refine .inr ?_
    by_cases hpr : id ∈ m.scheduler.prepared.map (·.id)
    · exact or_self_iff.mp (hd.touched id hpr)
    have hq : id ∈ m.scheduler.queuedIds := by
      refine (mem_queuedIds hso id).mpr (hw.resolve_right ?_)
      rintro ⟨work, hl, hs⟩
      exact hpr (mem_map.mpr ⟨work, hl, hs⟩)
    rw [hd.untouched id hpr]
    simp only [update, failAllRequests, lookup_markAll, if_pos hq]
  · intro work hl _ hp
    rw [hst, if_pos]
    exact (mem_publishing _ (fun _ => true) _).mpr ⟨work, hl, rfl, rfl, hp⟩
  · intro id ha
    obtain ⟨hud, hun, hu⟩ := ha rfl
    rw [hst, if_neg]
    · rw [hd.untouched]
      · simp only [update, failAllRequests, lookup_markAll]
        rw [if_neg (fun hl => hud ((mem_queuedIds hso id).mp hl))]
        rfl
      · intro hl
        obtain ⟨work, hm, hs⟩ := mem_map.mp hl
        exact hun ⟨work, hm, hs⟩
    · rw [mem_publishing _ fun _ => true]
      rintro ⟨work, hl, hs, -, hp⟩
      exact hu work hl hp hs
  · rw [hc]; rfl

variable (reason : String) (now : Nat)

theorem poison_reaches (hs : (m.ledger []).Sound) :
    Reaches env.permitsParallelBranches (m.ledger []) ((poison env reason now m).ledger []) := by
  unfold poison
  split
  · exact .refl
  have hd := discardBranches_discards env .failed m.scheduler.prepared
    (m.update (·.failAllRequests))
  generalize discardBranches env .failed m.scheduler.prepared _ = result at hd ⊢
  have hl := hd.ledger []
  simp only [ledger, Ledger.mk.injEq, failAllRequests] at hl
  refine .single (.close _ (hd.closes now hs ?_))
  simp [ledger, update, abandonPublished, releaseAccepted,
    hl, abandonIf, updateAbandonedResourcePeak]
  rfl

theorem poison_history (m : Machine Ω W S B O) : (poison env reason now m).history = m.history := by
  unfold poison
  split
  · rfl
  · exact congrArg Ledger.history ((discardBranches_discards env .failed m.scheduler.prepared
      (m.update (·.failAllRequests))).ledger [])

/-- From a sound ledger the machine moved along the protocol, and it published `ids`. -/
structure Delivers (ids : List WorkId) (before after : Machine Ω W S B O) :
    Prop where
  reaches : (before.ledger []).Sound →
    Reaches env.permitsParallelBranches (before.ledger []) (after.ledger [])
  published : publishedIds after.history = publishedIds before.history ++ ids

/-- The machine moved along the protocol without publishing anything. -/
abbrev Follows : Machine Ω W S B O → Machine Ω W S B O → Prop :=
  Delivers env []

theorem Delivers.trans {first second : List WorkId} {middle : Machine Ω W S B O}
    (he : Delivers env first before middle) (hl : Delivers env second middle after) :
    Delivers env (first ++ second) before after where
  reaches hs :=
    (he.reaches hs).trans (hl.reaches (hs.reaches (he.reaches hs)))
  published := by rw [hl.published, he.published, append_assoc]

instance : IsPreorder (Machine Ω W S B O) (Follows env) where
  refl _ := ⟨fun _ => .refl, (append_nil _).symm⟩
  trans _ _ _ first second := first.trans env second

theorem Follows.of_reaches (hm : (before.ledger []).Sound →
      Reaches env.permitsParallelBranches (before.ledger []) (after.ledger []))
    (hq : publishedIds after.history = publishedIds before.history := by rfl) :
    Follows env before after :=
  ⟨hm, hq.trans (append_nil _).symm⟩

theorem Follows.of_ledger_eq (hs : after.ledger [] = before.ledger []) :
    Follows env before after := by
  refine .of_reaches env (fun _ => hs ▸ .refl) ?_
  exact congrArg (fun ledger => publishedIds ledger.history) hs

theorem Follows.of_transition (hst : (before.ledger []).Sound →
      Transition env.permitsParallelBranches (before.ledger []) (after.ledger []))
    (hq : publishedIds after.history = publishedIds before.history := by rfl) :
    Follows env before after :=
  .of_reaches env (fun hs => .single (hst hs)) hq

open Effect

theorem ensureReady_yields (m : Machine Ω W S B O) : (ensureReady : Op Ω W S B O Unit).Yields m
      (fun _ after => after = m ∧ m.scheduler.poisoned = none) (fun _ after => after = m) := by
  simp only [ensureReady, yields_bind, yields_get]
  split
  · rename_i hr
    exact ⟨rfl, hr⟩
  · exact rfl

variable {relation : Machine Ω W S B O → Machine Ω W S B O → Prop}

theorem ensureReady_guarantee [IsPreorder _ relation] :
    Guarantee relation (ensureReady : Op Ω W S B O Unit) := by
  intro m
  refine (ensureReady_yields m).mono ?_ ?_
  · rintro _ _ ⟨rfl, -⟩
    exact refl_of relation _
  · rintro _ _ rfl
    exact refl_of relation _

variable {α : Type}

theorem cancelInternal_guarantee
    [IsPreorder _ relation] (request : RequestId) (cause : CancellationCause) (now : Nat)
    (hc : ∀ {m entry}, m.scheduler.requests[request]? = some entry →
      relation m (cancelEntry env request entry cause now m).2) :
    Guarantee relation (cancelInternal env request cause now) := by
  refine ensureReady_guarantee.bind fun _ m => ?_
  simp only [yields_bind, yields_get]
  split
  · exact refl_of relation m
  cases ha : m.scheduler.requests[request]? with
  | none => exact refl_of relation m
  | some entry =>
    simp only [yields_bind, yields_apply]
    split
    · exact hc ha
    · exact hc ha

theorem cancelInternal_curbs (request : RequestId) (cause : CancellationCause) (now : Nat) :
    Guarantee Curbs (cancelInternal env request cause now) :=
  cancelInternal_guarantee env request cause now fun _ => cancelEntry_curbs env request _ cause now _

/-- A relation kept by what can interrupt a method: the world moves on, the scheduler is fenced or
poisoned, a request is cancelled. -/
structure Interrupts (relation : Machine Ω W S B O → Machine Ω W S B O → Prop) : Prop where
  world : ∀ m world, relation m { m with world }
  fence : ∀ reason m, relation m (fence reason m)
  poison : ∀ reason now m, relation m (poison env reason now m)
  cancel : ∀ {m request entry}, m.scheduler.requests[request]? = some entry → ∀ cause now,
    relation m (cancelEntry env request entry cause now m).2

theorem follows_interrupts : Interrupts env (Follows env) where
  world _ _ := .of_ledger_eq env rfl
  fence _ _ := .of_ledger_eq env rfl
  poison reason now m := .of_reaches env (fun hs => poison_reaches env reason now hs)
    (congrArg publishedIds (poison_history env reason now m))
  cancel {m request entry} ha cause now :=
    .of_reaches env (fun hs => cancelEntry_reaches env cause now hs ha)
      (congrArg publishedIds (cancelEntry_history env request entry cause now m))

variable (protocol : UInt64)

section Interruptions

variable {env}
variable {relation : Machine Ω W S B O → Machine Ω W S B O → Prop} [IsPreorder _ relation]
  (interrupts : Interrupts env relation)

include interrupts

theorem Interrupts.cancelInternal (request : RequestId) (cause : CancellationCause) (now : Nat) :
    Guarantee relation (cancelInternal env request cause now) :=
  cancelInternal_guarantee env request cause now fun ha => interrupts.cancel ha cause now

theorem Interrupts.expireDeadlines : Guarantee relation (expireDeadlines env now) := by
  intro m
  exact guarantee_forM (fun request => interrupts.cancelInternal request .deadline now) m

omit [IsPreorder _ relation] in
theorem Interrupts.consult (protocol : Effect Ω ConsensusError α) : Guarantee relation
      (consult protocol : Op Ω W S B O (Except ConsensusError α)) :=
  guarantee_attemptOn fun world m => interrupts.world m world

theorem Interrupts.poisonThen (error : SchedulerError) (now : Nat) :
    Guarantee relation (do
      modify (Scheduling.poison env reason now)
      Effect.fail error : Op Ω W S B O α) := by
  exact (guarantee_modify (interrupts.poison reason now)).bind fun _ => guarantee_fail _

theorem Interrupts.fenceWith : Guarantee relation (fenceWith reason : Op Ω W S B O α) := by
  exact (guarantee_modify (interrupts.fence reason)).bind fun _ => guarantee_fail _

theorem Interrupts.agreeDisposition (request : RequestId)
    (cause : CancellationCause) (phase : UInt32) (localReady : Bool) (refusal : String) :
    Guarantee relation (agreeDisposition env protocol request cause phase localReady refusal) := by
  refine (interrupts.consult _).bind fun agreed => ?_
  split
  · exact interrupts.fenceWith _
  · exact interrupts.fenceWith _
  · exact guarantee_pure _

theorem Interrupts.cancelAuthorized (request : RequestId) (cause : CancellationCause) (now : Nat) :
    Guarantee relation (cancelAuthorized env request cause now) := by
  refine (interrupts.cancelInternal request cause now).attempt.bind fun cancelled => ?_
  split
  · exact guarantee_pure _
  · exact interrupts.poisonThen _ _ now

theorem Interrupts.expireDeadlinesDistributed (now : Nat) :
    Guarantee relation (expireDeadlinesDistributed env protocol now) := by
  refine guarantee_get.bind fun m => (interrupts.consult _).bind fun agreed => ?_
  split
  · exact interrupts.fenceWith _
  refine guarantee_forM fun request => guarantee_get.bind fun _ =>
    (interrupts.agreeDisposition protocol request .deadline 1 _ _).bind fun _ =>
    guarantee_get.bind fun _ =>
    (interrupts.agreeDisposition protocol request .deadline 2 _ _).bind fun _ =>
    interrupts.cancelAuthorized request .deadline now

theorem Interrupts.cancelDistributed (request : RequestId) (now : Nat) :
    Guarantee relation (cancelDistributed env protocol request now) := by
  exact ensureReady_guarantee.bind fun _ => guarantee_get.bind fun _ =>
    (interrupts.agreeDisposition protocol request .explicit 1 _ _).bind fun _ =>
    (interrupts.agreeDisposition protocol request .explicit 2 _ _).bind fun _ =>
    interrupts.cancelAuthorized request .explicit now

end Interruptions

theorem register_follows (id : RequestId) (state : S) :
    Guarantee (Follows env) (register id state) := by
  unfold register validateRegistration
  rw [bind_assoc]
  refine ensureReady_guarantee.bind fun _ m => ?_
  simp only [yields_bind, yields_get]
  split
  · exact refl_of (Follows env) _
  split
  · exact refl_of (Follows env) _
  rename_i hk hr
  refine .of_transition env fun _ => ?_
  simp only [Bool.or_eq_true, not_or, Bool.not_eq_true, contains_eq_isSome_getElem?,
    Option.isSome_eq_false_iff, Option.isNone_iff_eq_none] at hk
  exact .register id state rfl hk.1 hk.2 (Nat.lt_of_not_le hr)

theorem requestStateMut_follows (id : RequestId) (access : S → S) :
    Guarantee (Follows env) (requestStateMut id access) := by
  refine ensureReady_guarantee.bind fun _ m => ?_
  simp only [yields_bind, yields_get]
  split
  · exact refl_of (Follows env) _
  rename_i hi
  cases ha : m.scheduler.requests[id]? with
  | none => exact refl_of (Follows env) _
  | some entry =>
    refine .of_transition env fun _ => ?_
    exact .access id entry (access entry.state) rfl
      (by simpa [branches, inFlight, ledger, branchCount] using hi) ha

theorem enqueueBatchWithDeadlines_follows (request : RequestId) (work : List (W × Option Nat)) :
    Guarantee (Follows env) (enqueueBatchWithDeadlines request work) := by
  refine ensureReady_guarantee.bind fun _ m => ?_
  simp only [yields_bind, yields_get]
  split
  · exact refl_of (Follows env) _
  split
  · exact refl_of (Follows env) _
  rename_i hro
  cases ha : m.scheduler.requests[request]? with
  | none => exact refl_of (Follows env) _
  | some entry =>
    dsimp only
    split
    · exact refl_of (Follows env) _
    rename_i hr
    refine .of_transition env fun _ => ?_
    exact .enqueue request entry work _ rfl ha (Nat.le_of_not_lt hro)
      (Nat.le_of_not_lt hr) fun id => lookup_markAll ..

theorem finish_follows (request : RequestId) : Guarantee (Follows env) (finish env request) := by
  refine ensureReady_guarantee.bind fun _ m => ?_
  simp only [yields_bind, yields_get]
  split
  · exact refl_of (Follows env) _
  rename_i hq
  cases ha : m.scheduler.requests[request]? with
  | none => exact refl_of (Follows env) _
  | some entry =>
    simp only [yields_bind, yields_apply, yields_modify]
    have hw := withdrawRequest_withdraws env request entry .abandoned m
    generalize withdrawRequest env request entry .abandoned m = result at hw ⊢
    obtain ⟨⟨discarded, error⟩, withdrawn⟩ := result
    have hle := hw.ledger []
    simp only [ledger, Ledger.mk.injEq] at hle
    -- No submission belongs to the request, so abandoning its submissions changes nothing.
    have he : ∀ work ∈ m.scheduler.submitted, work.id.request ≠ request := by
      simpa using hq
    have hmo : Follows env m (withdrawn.update fun s => { s with
        terminal := s.terminal.insert request (if error.isSome then .failed else .finished)
        finishedRequests := saturatingAdd s.finishedRequests 1 }) := by
      refine .of_transition env (fun hs => .close _ (hw.closes
        (if error.isSome then .failed else .finished) 0
        (fun id => withdrawn.scheduler.lifecycle[id]?) hs ha (.inl rfl) ?_ ?_))
        (congrArg publishedIds hw.history)
      · intro id
        rw [if_neg]
        intro hl
        obtain ⟨work, hm, -⟩ := mem_map.mp hl
        have := mem_filter.mp hm
        simp only [Bool.and_eq_true, decide_eq_true_eq] at this
        exact he work this.1 this.2.1
      · have hk : m.scheduler.submitted.map
            (abandonIf (fun other => decide (other = request)) 0) = m.scheduler.submitted :=
          (map_congr_left fun work hl => abandonIf_of_open
            (.inl (by simpa using he work hl))).trans (map_id _)
        simp [ledger, update, hle, hk, lookup_insert, Function.update_apply, funext_iff]
    split
    · exact hmo
    · exact hmo

end Eredu.Scheduling
