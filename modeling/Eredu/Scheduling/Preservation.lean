import Eredu.Scheduling.Ledger

/-!
# Every move keeps the ledger sound

One lemma per move of `Ledger.Transition`, and from them the invariant along any
sequence of moves.
-/

namespace Eredu.Scheduling.Ledger

open Std List Function

variable {W S B O : Type} {ledger after : Ledger W S B O} {queued : Queued W}

namespace Directory

variable {request : RequestId} {entry : Request W S}

theorem setState (hd : ledger.Directory) (ha : ledger.requests[request]? = some entry)
    (state : S) (history : List (Event S)) :
    Directory { ledger with
      requests := ledger.requests.insert request { entry with state }
      history } := by
  obtain ⟨hqu, hq, he, hr, hre, hw⟩ := hd
  refine ⟨?_, ?_, ?_, hr, ?_, ?_⟩
  iterate 4 · grind
  · have hrd := total_insert (fun _ => 1) { entry with state } ha
    simp only [size_eq_total] at *
    omega

theorem register (hd : ledger.Directory) (state : S) (history : List (Event S))
    (hi : ledger.requests[request]? = none) (hf : ledger.terminal request = none)
    (hro : ledger.requests.size < ledger.limits.maxActiveRequests) :
    Directory { ledger with
      requests := ledger.requests.insert request { state, next := 0, pending := [] }
      history } := by
  obtain ⟨hqu, hq, he, hr, hre, hw⟩ := hd
  refine ⟨?_, ?_, ?_, hr, ?_, ?_⟩
  iterate 4 · grind
  · simp only [size_eq_total] at hro ⊢
    rw [total_insert_absent _ _ hi]
    omega

/-- The first ready request gives up the head of its queue and goes to the back of the ready queue
while it has more. -/
theorem take (hd : ledger.Directory) {rest : List RequestId}
    {pending : List (Queued W)} (lifecycle : WorkId → Option WorkLifecycle)
    (prepared : List (Prepared W B)) (accepted : Nat) (history : List (Event S))
    (hf : ledger.ready = request :: rest) (ha : ledger.requests[request]? = some entry)
    (hqe : entry.pending = queued :: pending) :
    Directory { ledger with
      requests := ledger.requests.insert request { entry with pending }
      ready := if pending.isEmpty then rest else rest ++ [request]
      prepared, lifecycle, accepted, history } := by
  obtain ⟨hqu, hq, he, hr, hre, hw⟩ := hd
  rw [hf] at hr
  refine ⟨?_, ?_, ?_, ?_, ?_, ?_⟩
  · grind
  · grind
  · grind
  · show (if pending.isEmpty then rest else rest ++ [request]).Nodup
    split
    · exact (nodup_cons.mp hr).2
    · exact (perm_append_singleton request rest).nodup_iff.mpr hr
  · intro other
    have hl := hre other
    simp only [lookup_insert]
    by_cases hs : other = request <;> by_cases hem : pending = [] <;> simp_all
  · have hrd := total_insert (fun _ => 1) { entry with pending } ha
    simp only [size_eq_total] at *
    omega

end Directory

theorem toNat_ofNat_u64 {value : Nat} (hb : value ≤ u64Max) :
    (UInt64.ofNat value).toNat = value := by
  unfold u64Max at hb
  exact UInt64.toNat_ofNat_of_lt' (by simp only [UInt64.size]; omega)

variable {request : RequestId}

variable {work : List (W × Option Nat)}

/-- The sequence numbers of an accepted batch follow those issued before. -/
theorem mem_batchEntries {first : Nat} (hb : first + work.length ≤ u64Max)
    (hm : queued ∈ batchEntries request first work) :
    queued.id.request = request ∧ first ≤ queued.id.sequence.toNat ∧
      queued.id.sequence.toNat < first + work.length := by
  induction work generalizing first with
  | nil => simp [batchEntries] at hm
  | cons item rest ih =>
    simp only [length_cons] at hb ⊢
    rcases mem_cons.mp hm with rfl | hl
    · simp only [toNat_ofNat_u64 (show first ≤ u64Max by omega)]
      exact ⟨trivial, by omega, by omega⟩
    · obtain ⟨ho, hlo, hu⟩ := ih (by omega) hl
      exact ⟨ho, by omega, by omega⟩

theorem batchEntries_length (request : RequestId) (work : List (W × Option Nat)) (first : Nat) :
    (batchEntries request first work).length = work.length := by
  induction work generalizing first with
  | nil => rfl
  | cons item rest ih => simp [batchEntries, ih]

theorem batchEntries_ordered (request : RequestId) {first : Nat}
    (hb : first + work.length ≤ u64Max) :
    (batchEntries request first work).Pairwise fun earlier later =>
      earlier.id.sequence < later.id.sequence := by
  induction work generalizing first with
  | nil => exact List.Pairwise.nil
  | cons item rest ih =>
    simp only [length_cons] at hb
    refine List.Pairwise.cons (fun later hm => ?_) (ih (by omega))
    obtain ⟨_, hf, _⟩ := mem_batchEntries (by omega) hm
    rw [UInt64.lt_iff_toNat_lt, toNat_ofNat_u64 (by omega)]
    omega

variable {entry : Request W S}

theorem Directory.append (hd : ledger.Directory) {added : List (Queued W)} {next : UInt64}
    (lifecycle : WorkId → Option WorkLifecycle) (accepted : Nat)
    (ha : ledger.requests[request]? = some entry)
    (hi : ∀ queued ∈ added, queued.id.request = request ∧
      entry.next ≤ queued.id.sequence ∧ queued.id.sequence < next) (hg : entry.next ≤ next)
    (hor : added.Pairwise fun earlier later => earlier.id.sequence < later.id.sequence) :
    Directory { ledger with
      requests := ledger.requests.insert request
        { entry with next, pending := entry.pending ++ added }
      ready := if entry.pending.isEmpty && added.length ≠ 0 then ledger.ready ++ [request]
        else ledger.ready
      lifecycle, accepted } := by
  have ho := hd.queueOwned request entry ha
  have hl := hd.readyQueued request
  refine ⟨?_, ?_, ?_, ?_, ?_, ?_⟩
  · intro other known hf queued hm
    simp only [lookup_insert] at hf
    split at hf
    · cases hf
      rename_i hs
      rcases mem_append.mp hm with old | new
      · exact ⟨(ho queued old).1.trans hs.symm, lt_of_lt_of_le (ho queued old).2 hg⟩
      · exact ⟨(hi queued new).1.trans hs.symm, (hi queued new).2.2⟩
    · exact hd.queueOwned other known hf queued hm
  · intro other known hf
    simp only [lookup_insert] at hf
    split at hf
    · cases hf
      refine pairwise_append.mpr ⟨hd.queueOrdered request entry ha, hor, ?_⟩
      exact fun earlier old later new => lt_of_lt_of_le (ho earlier old).2 (hi later new).2.1
    · exact hd.queueOrdered other known hf
  · have := hd.exclusive
    grind
  · show (if _ then _ else _ : List RequestId).Nodup
    have hdi := hd.readyDistinct
    split
    · refine (perm_append_singleton request ledger.ready).nodup_iff.mpr ?_
      simp_all
    · exact hdi
  · intro other
    have he := hd.readyQueued other
    simp only [lookup_insert]
    by_cases hs : other = request
    · subst hs
      by_cases hem : entry.pending = [] <;> by_cases hn : added = [] <;> simp_all
    · split <;> simp_all
  · have hr := total_insert (fun _ => 1) { entry with next, pending := entry.pending ++ added } ha
    have := hd.withinActive
    simp only [size_eq_total] at *
    omega

variable {id : WorkId} {replacement : Request W S}

theorem Active.insert (hi : ledger.Active id) (ha : ledger.requests[request]? = some entry)
    (hr : after.requests = ledger.requests.insert request replacement)
    (hg : entry.next ≤ replacement.next) : after.Active id := by
  obtain ⟨known, hf, hb⟩ := hi
  unfold Active
  rw [hr, lookup_insert]
  split
  · rename_i hs
    rw [hs, ha, Option.some.injEq] at hf
    subst hf
    exact ⟨replacement, rfl, lt_of_lt_of_le hb hg⟩
  · exact ⟨known, hf, hb⟩

theorem Issued.insert (hi : ledger.Issued id) (ha : ledger.requests[request]? = some entry)
    (hr : after.requests = ledger.requests.insert request replacement)
    (ht : after.terminal = ledger.terminal) (hg : entry.next ≤ replacement.next) :
    after.Issued id := by
  rcases hi with hi | he
  · exact .inl (hi.insert ha hr hg)
  · exact .inr (by rwa [ht])

theorem lookup_insert_ne_none {requests : TreeMap RequestId (Request W S)} {other : RequestId}
    (entry : Request W S) (hk : requests[other]? ≠ none) :
    (requests.insert request entry)[other]? ≠ none := by
  rw [lookup_insert]
  split
  · simp
  · exact hk

/-- One transition moves to another stage, and every other one stays where it is. -/
theorem Sound.staged_update (hs : ledger.Sound) {moved : WorkId} {stage : WorkLifecycle}
    (hl : after.lifecycle = update ledger.lifecycle moved (some stage))
    (hst : after.lifecycle moved = some stage → after.Staged moved)
    (hq : ∀ id, id ≠ moved → (after.InQueue id ↔ ledger.InQueue id))
    (hp : ∀ id, id ≠ moved → (after.InPrepared id ↔ ledger.InPrepared id))
    (hf : ∀ work, work.id ≠ moved → (work ∈ after.inFlight ↔ work ∈ ledger.inFlight))
    (id : WorkId) : after.Staged id := by
  by_cases hm : id = moved
  · subst hm
    exact hst (by rw [hl, update_self])
  · refine (hs.staged id).congr (by rw [hl, update_of_ne hm]) (hq id hm) (hp id hm) ?_
    rintro work rfl
    exact hf work hm

/-- Submissions change places or lose the right to publish. -/
theorem Sound.reflight (hs : ledger.Sound) {submitted outside : List (Submitted W B O)}
    {lifecycle : WorkId → Option WorkLifecycle}
    (ids : ((submitted ++ outside).map (·.id)).Perm (ledger.inFlight.map (·.id)))
    (staged : ∀ id, Staged { ledger with submitted, outside, lifecycle } id)
    (publishActive : ∀ work ∈ submitted, work.disposition = .publish →
      ledger.requests[work.id.request]? ≠ none) :
    Sound { ledger with submitted, outside, lifecycle } := by
  have length : (submitted ++ outside).length = ledger.inFlight.length := by
    simpa using ids.length_eq
  refine { hs with
    staged, publishActive, flightIssued := ?_, flightDistinct := ids.nodup_iff.mpr hs.flightDistinct
    accounted := ?_, withinGlobal := ?_, withinRequest := ?_ }
  · intro work hm
    obtain ⟨original, hl, hsa⟩ := mem_map.mp (ids.subset (mem_map_of_mem hm))
    exact hsa ▸ hs.flightIssued original hl
  · exact hs.accounted.trans (congrArg _ length.symm)
  · exact length.trans_le hs.withinGlobal
  · intro request
    have count := ids.countP_eq fun id => decide (id.request = request)
    rw [countP_map, countP_map] at count
    exact (congrArg _ count).trans_le (hs.withinRequest request)

theorem Sound.setState (hs : ledger.Sound) (ha : ledger.requests[request]? = some entry) (state : S)
    (history : List (Event S)) :
    Sound { ledger with
      requests := ledger.requests.insert request { entry with state }
      history } :=
  { hs with
    toDirectory := hs.toDirectory.setState ha state history
    staged id := by
      refine (hs.staged id).congr rfl ?_ .rfl fun _ _ => .rfl
      rw [inQueue_insert rfl]
      split
      · exact (inQueue_of_active ha ‹_›).symm
      · rfl
    preparedActive work hm := (hs.preparedActive work hm).insert ha rfl (le_refl _)
    flightIssued work hm := (hs.flightIssued work hm).insert ha rfl rfl (le_refl _)
    publishActive work hm hp := lookup_insert_ne_none _ (hs.publishActive work hm hp)
    accounted := by
      have hr := total_insert queueLength { entry with state } ha
      have hac := hs.accounted
      simp only [queueLength, inFlight] at *
      omega }

theorem Sound.register (hs : ledger.Sound) (state : S) (hi : ledger.requests[request]? = none)
    (hfr : ledger.terminal request = none)
    (hr : ledger.requests.size < ledger.limits.maxActiveRequests) :
    Sound { ledger with
      requests := ledger.requests.insert request { state, next := 0, pending := [] }
      history := .registered request state :: ledger.history } := by
  have hst : ∀ {id : WorkId}, ledger.Active id → ∃ entry : Request W S,
      (ledger.requests.insert request { state, next := 0, pending := [] })[id.request]? =
        some entry ∧ id.sequence < entry.next := by
    rintro id ⟨known, hf, hb⟩
    refine ⟨known, ?_, hb⟩
    rw [lookup_insert, if_neg, hf]
    intro hsa
    rw [hsa, hi] at hf
    cases hf
  exact { hs with
    toDirectory := hs.toDirectory.register state _ hi hfr hr
    staged id := by
      refine (hs.staged id).congr rfl ?_ .rfl fun _ _ => .rfl
      rw [inQueue_insert rfl]
      split
      · rename_i ho
        simp [InQueue, ho, hi]
      · rfl
    preparedActive work hm := hst (hs.preparedActive work hm)
    flightIssued work hm := (hs.flightIssued work hm).imp hst id
    publishActive work hm hp := lookup_insert_ne_none _ (hs.publishActive work hm hp)
    accounted := by
      rw [total_insert_absent queueLength _ hi]
      simpa [queueLength, inFlight] using hs.accounted }

variable {lifecycle : WorkId → Option WorkLifecycle}

theorem Sound.enqueue (hs : ledger.Sound) (ha : ledger.requests[request]? = some entry)
    (hro : ledger.accepted + work.length ≤ ledger.limits.maxQueuedWork)
    (hr : entry.next.toNat + work.length ≤ u64Max) (hma : ∀ id, lifecycle id =
      if id ∈ (batchEntries request entry.next.toNat work).map (·.id) then some .queued
      else ledger.lifecycle id) :
    Sound { ledger with
      requests := ledger.requests.insert request { entry with
        next := UInt64.ofNat (entry.next.toNat + work.length)
        pending := entry.pending ++ batchEntries request entry.next.toNat work }
      lifecycle
      ready := if entry.pending.isEmpty && work.length ≠ 0 then ledger.ready ++ [request]
        else ledger.ready
      accepted := ledger.accepted + work.length } := by
  have hn := toNat_ofNat_u64 hr
  have hle := batchEntries_length request work entry.next.toNat
  have hor := batchEntries_ordered request hr
  have hi : ∀ queued ∈ batchEntries request entry.next.toNat work,
      queued.id.request = request ∧ entry.next ≤ queued.id.sequence ∧
        queued.id.sequence < UInt64.ofNat (entry.next.toNat + work.length) := by
    intro queued hm
    obtain ⟨ho, hlo, hu⟩ := mem_batchEntries hr hm
    rw [UInt64.le_iff_toNat_le, UInt64.lt_iff_toNat_lt, hn]
    exact ⟨ho, hlo, hu⟩
  have hg : entry.next ≤ UInt64.ofNat (entry.next.toNat + work.length) := by
    rw [UInt64.le_iff_toNat_le, hn]
    omega
  rw [← hle]
  rw [← hle] at hro hg hi
  generalize batchEntries request entry.next.toNat work = added at *
  generalize UInt64.ofNat (entry.next.toNat + added.length) = next at *
  -- A fresh identity lies beyond every issued one, so no container holds it yet.
  have hfh : ∀ queued ∈ added, ¬ ledger.Holds queued.id := by
    intro queued hm hh
    obtain ⟨ho, hlo, _⟩ := hi queued hm
    have known : ledger.Active queued.id := by
      rcases hh with ⟨known, hf, other, hl, hsa⟩ | ⟨other, hl, hsa⟩ | ⟨other, hl, hsa⟩
      · exact ⟨known, hf, hsa ▸ (hs.queueOwned _ known hf other hl).2⟩
      · exact hsa ▸ hs.preparedActive other hl
      · rcases hsa ▸ hs.flightIssued other hl with known | he
        · exact known
        · exact absurd (hs.exclusive _ (by simp [ho, ha])) he
    obtain ⟨known, hf, hb⟩ := known
    rw [ho, ha, Option.some.injEq] at hf
    subst hf
    exact absurd (lt_of_lt_of_le hb hlo) (UInt64.lt_irrefl _)
  exact { hs with
    toDirectory := hs.toDirectory.append lifecycle _ ha hi hg hor
    staged id := by
      by_cases new : id ∈ added.map (·.id)
      · obtain ⟨queued, hm, rfl⟩ := mem_map.mp new
        have hst : lifecycle queued.id = some .queued := by rw [hma, if_pos new]
        have hfr := hfh queued hm
        simp only [Holds, not_or] at hfr
        refine ⟨?_, ?_, ?_, ?_, ?_⟩
        · rw [inQueue_insert rfl, if_pos (hi queued hm).1]
          exact iff_of_true hst ⟨queued, mem_append_right _ hm, rfl⟩
        · exact iff_of_false (by simp [hst]) hfr.2.1
        · exact fun work hm hsa => absurd ⟨work, hm, hsa⟩ hfr.2.2
        · simp [hst]
        · simp [hst]
      · refine (hs.staged id).congr ((hma id).trans (if_neg new)) ?_ .rfl fun _ _ => .rfl
        rw [inQueue_insert rfl]
        split
        · rw [inQueue_of_active ha ‹_›]
          simp only [mem_append, or_and_right, exists_or]
          refine or_iff_left ?_
          rintro ⟨queued, hm, hsa⟩
          exact new (mem_map.mpr ⟨queued, hm, hsa⟩)
        · rfl
    preparedActive work hm := (hs.preparedActive work hm).insert ha rfl hg
    flightIssued work hm := (hs.flightIssued work hm).insert ha rfl rfl hg
    publishActive work hm hp := lookup_insert_ne_none _ (hs.publishActive work hm hp)
    accounted := by
      have hre := total_insert queueLength { entry with next, pending := entry.pending ++ added } ha
      have hac := hs.accounted
      simp only [queueLength, inFlight, length_append] at *
      omega
    withinQueue := hro }

section QueueHead

variable {request : RequestId} {entry : Request W S} {queued : Queued W}
  {pending : List (Queued W)}

theorem Sound.inQueue_head (hs : ledger.Sound) (ha : ledger.requests[request]? = some entry)
    (hq : entry.pending = queued :: pending) :
    queued.id.request = request ∧ ledger.InQueue queued.id := by
  have hl : queued ∈ entry.pending := by simp [hq]
  have ho := (hs.queueOwned request entry ha queued hl).1
  exact ⟨ho, (inQueue_of_active ha ho).mpr ⟨queued, hl, rfl⟩⟩

theorem Sound.tail_ne_head (hs : ledger.Sound) (ha : ledger.requests[request]? = some entry)
    (hq : entry.pending = queued :: pending) : ∀ work ∈ pending, work.id ≠ queued.id := by
  intro work hm hsa
  have ho := hs.queueOrdered request entry ha
  rw [hq] at ho
  have hl := (pairwise_cons.mp ho).1 work hm
  rw [hsa] at hl
  exact UInt64.lt_irrefl _ hl

theorem Sound.inQueue_take (hs : ledger.Sound) (ha : ledger.requests[request]? = some entry)
    (hq : entry.pending = queued :: pending)
    (hr : after.requests = ledger.requests.insert request { entry with pending })
    (id : WorkId) : after.InQueue id ↔ ledger.InQueue id ∧ id ≠ queued.id := by
  obtain ⟨ho, -⟩ := hs.inQueue_head ha hq
  have haw := hs.tail_ne_head ha hq
  rw [inQueue_insert hr]
  split
  · rename_i hsa
    rw [inQueue_of_active ha hsa, hq]
    constructor
    · rintro ⟨work, hm, rfl⟩
      exact ⟨⟨work, mem_cons_of_mem _ hm, rfl⟩, haw work hm⟩
    · rintro ⟨⟨work, hm, rfl⟩, hd⟩
      rcases mem_cons.mp hm with rfl | hl
      · exact absurd rfl hd
      · exact ⟨work, hl, rfl⟩
  · rename_i hot
    refine (and_iff_left ?_).symm
    rintro rfl
    exact hot ho

variable {rest : List RequestId}

theorem Sound.reject (hs : ledger.Sound) (hfr : ledger.ready = request :: rest)
    (ha : ledger.requests[request]? = some entry) (hq : entry.pending = queued :: pending) :
    Sound { ledger with
      requests := ledger.requests.insert request { entry with pending }
      ready := if pending.isEmpty then rest else rest ++ [request]
      lifecycle := update ledger.lifecycle queued.id (some .failed)
      accepted := ledger.accepted - 1 } := by
  obtain ⟨ho, hh⟩ := hs.inQueue_head ha hq
  have hf := (hs.staged queued.id).exclusive_queue hh
  exact { hs with
    toDirectory := hs.toDirectory.take _ _ _ _ hfr ha hq
    staged := by
      refine hs.staged_update rfl (fun hst => Staged.of_settled hst (by simp) ?_)
        (fun id hn => (hs.inQueue_take ha hq rfl id).trans (and_iff_left hn)) (fun _ _ => .rfl)
        fun _ _ => .rfl
      rintro (hq' | prepared | hfl)
      · exact ((hs.inQueue_take ha hq rfl _).mp hq').2 rfl
      · exact hf.1 prepared
      · exact hf.2 hfl
    preparedActive work hm := (hs.preparedActive work hm).insert ha rfl (le_refl _)
    flightIssued work hm := (hs.flightIssued work hm).insert ha rfl rfl (le_refl _)
    publishActive work hm hp := lookup_insert_ne_none _ (hs.publishActive work hm hp)
    accounted := by
      have hr := total_insert queueLength { entry with pending } ha
      have hac := hs.accounted
      simp only [queueLength, hq, length_cons, inFlight] at *
      omega
    withinQueue := (Nat.sub_le ..).trans hs.withinQueue }

theorem Sound.prepare (hs : ledger.Sound) {prepared : Prepared W B}
    (hfr : ledger.ready = request :: rest) (ha : ledger.requests[request]? = some entry)
    (hq : entry.pending = queued :: pending)
    (hro : ledger.branches request < ledger.limits.maxInFlightPerRequest)
    (hsa : prepared.id = queued.id) :
    Sound { ledger with
      requests := ledger.requests.insert request { entry with pending }
      ready := if pending.isEmpty then rest else rest ++ [request]
      prepared := ledger.prepared ++ [prepared]
      lifecycle := update ledger.lifecycle queued.id (some .prepared)
      history := .branched queued.id entry.state :: ledger.history } := by
  obtain ⟨ho, hh⟩ := hs.inQueue_head ha hq
  have hf := (hs.staged queued.id).exclusive_queue hh
  exact { hs with
    toDirectory := hs.toDirectory.take _ _ _ _ hfr ha hq
    staged := by
      refine hs.staged_update rfl (fun hst => ⟨?_, ?_, ?_, ?_, ?_⟩)
        (fun id hn => (hs.inQueue_take ha hq rfl id).trans (and_iff_left hn)) (fun id hn => ?_)
        fun _ _ => .rfl
      · refine iff_of_false (by simp) fun hq' => ?_
        exact ((hs.inQueue_take ha hq rfl _).mp hq').2 rfl
      · exact iff_of_true hst ⟨prepared, by simp, hsa⟩
      · exact fun work hm hsa => absurd ⟨work, hm, hsa⟩ hf.2
      · simp
      · simp
      · simp only [InPrepared, mem_append, mem_singleton, or_and_right, exists_or]
        refine or_iff_left ?_
        rintro ⟨work, rfl, he⟩
        exact hn (he.symm.trans hsa)
    preparedActive work hm := by
      rcases mem_append.mp hm with old | new
      · exact (hs.preparedActive work old).insert ha rfl (le_refl _)
      · rw [mem_singleton.mp new, hsa]
        have hi := hs.queueOwned request entry ha queued (by simp [hq])
        refine ⟨{ entry with pending }, ?_, hi.2⟩
        simp [ho]
    preparedDistinct := by
      rw [map_append, nodup_append]
      refine ⟨hs.preparedDistinct, by simp, ?_⟩
      rintro _ hl _ new rfl
      obtain ⟨work, hm, he⟩ := mem_map.mp hl
      exact hf.1 ⟨work, hm, by rw [he]; simpa [hsa] using new⟩
    flightIssued work hm := (hs.flightIssued work hm).insert ha rfl rfl (le_refl _)
    publishActive work hm hp := lookup_insert_ne_none _ (hs.publishActive work hm hp)
    accounted := by
      have hr := total_insert queueLength { entry with pending } ha
      have hac := hs.accounted
      simp only [queueLength, hq, length_cons, inFlight, length_append] at *
      simp only [length_nil]
      omega
    withinRequest other := by
      have hb := hs.withinRequest other
      simp only [branches, inFlight, countP_append, countP_singleton, hsa, ho] at *
      split
      · simp_all
        omega
      · omega }

end QueueHead

variable {work : Submitted W B O}

section PreparedHead

variable {prepared : Prepared W B} {rest : List (Prepared W B)}

theorem Sound.inPrepared_take (hs : ledger.Sound) (hf : ledger.prepared = prepared :: rest)
    (ha : after.prepared = rest) (id : WorkId) :
    after.InPrepared id ↔ ledger.InPrepared id ∧ id ≠ prepared.id := by
  have hd := hs.preparedDistinct
  rw [hf, map_cons, nodup_cons] at hd
  simp only [InPrepared, ha, hf]
  constructor
  · rintro ⟨work, hm, rfl⟩
    refine ⟨⟨work, mem_cons_of_mem _ hm, rfl⟩, fun hsa => hd.1 ?_⟩
    exact mem_map.mpr ⟨work, hm, hsa⟩
  · rintro ⟨⟨work, hm, rfl⟩, hdi⟩
    rcases mem_cons.mp hm with rfl | hl
    · exact absurd rfl hdi
    · exact ⟨work, hl, rfl⟩

theorem Sound.refuse (hs : ledger.Sound) (hf : ledger.prepared = prepared :: rest) :
    Sound { ledger with
      prepared := rest
      lifecycle := update ledger.lifecycle prepared.id (some .failed)
      accepted := ledger.accepted - 1 } := by
  have hh : ledger.InPrepared prepared.id := ⟨prepared, by simp [hf], rfl⟩
  have hfr := (hs.staged prepared.id).exclusive_prepared hh
  have hk : ∀ work ∈ rest, work ∈ ledger.prepared := by simp +contextual [hf]
  exact { hs with
    staged := by
      refine hs.staged_update rfl (fun hst => Staged.of_settled hst (by simp) ?_) (fun _ _ => .rfl)
        (fun id hn => (hs.inPrepared_take hf rfl id).trans (and_iff_left hn)) fun _ _ => .rfl
      rintro (hq | hp' | hfl)
      · exact hfr.1 hq
      · exact ((hs.inPrepared_take hf rfl _).mp hp').2 rfl
      · exact hfr.2 hfl
    preparedActive work hm := hs.preparedActive work (hk work hm)
    preparedDistinct := by
      have hd := hs.preparedDistinct
      rw [hf] at hd
      exact (nodup_cons.mp hd).2
    accounted := by
      have ha := hs.accounted
      simp only [hf, length_cons, inFlight] at *
      omega
    withinQueue := (Nat.sub_le ..).trans hs.withinQueue
    withinRequest request := by
      have hb := hs.withinRequest request
      simp only [branches, hf, countP_cons, inFlight] at *
      omega }

theorem Sound.submit (hs : ledger.Sound) (hse : ledger.outside = [])
    (hf : ledger.prepared = prepared :: rest)
    (hr : ledger.submitted.length < ledger.limits.maxInFlightGlobal) (hsa : work.id = prepared.id)
    (hp : work.disposition = .publish) :
    Sound { ledger with
      prepared := rest
      submitted := ledger.submitted ++ [work]
      lifecycle := update ledger.lifecycle prepared.id (some .submitted) } := by
  have hh : ledger.InPrepared prepared.id := ⟨prepared, by simp [hf], rfl⟩
  have hfr := (hs.staged prepared.id).exclusive_prepared hh
  have hk : ∀ work ∈ rest, work ∈ ledger.prepared := by simp +contextual [hf]
  have ha := hs.preparedActive prepared (by simp [hf])
  have hfl : ledger.inFlight = ledger.submitted := by simp [inFlight, hse]
  exact { hs with
    staged := by
      refine hs.staged_update rfl (fun _ => ⟨?_, ?_, ?_, ?_, ?_⟩) (fun _ _ => .rfl)
        (fun id hn => (hs.inPrepared_take hf rfl id).trans (and_iff_left hn)) fun other hn => ?_
      · exact iff_of_false (by simp) hfr.1
      · refine iff_of_false (by simp) fun hpr' => ?_
        exact ((hs.inPrepared_take hf rfl _).mp hpr').2 rfl
      · intro other hm he
        simp only [inFlight, hse, append_nil, mem_append, mem_singleton] at hm
        rcases hm with old | rfl
        · exact absurd ⟨other, by simpa [hfl] using old, he⟩ hfr.2
        · simp [hp, Disposition.lifecycle]
      · exact fun _ => ⟨work, by simp [inFlight], hsa⟩
      · simp
      · simp only [inFlight, hse, append_nil, mem_append, mem_singleton]
        refine or_iff_left ?_
        rintro rfl
        exact hn hsa
    preparedActive work hm := hs.preparedActive work (hk work hm)
    preparedDistinct := by
      have hd := hs.preparedDistinct
      rw [hf] at hd
      exact (nodup_cons.mp hd).2
    flightIssued other hm := by
      simp only [inFlight, hse, append_nil, mem_append, mem_singleton] at hm
      rcases hm with old | rfl
      · exact hs.flightIssued other (by simpa [hfl] using old)
      · exact .inl (by rw [hsa]; exact ha)
    flightDistinct := by
      have hd := hs.flightDistinct
      rw [hfl] at hd
      simp only [inFlight, hse, append_nil, map_append, nodup_append]
      refine ⟨hd, by simp, ?_⟩
      rintro _ hl _ new rfl
      obtain ⟨other, hm, he⟩ := mem_map.mp hl
      exact hfr.2 ⟨other, by simpa [hfl] using hm, by
        rw [he]; simpa [hsa] using new⟩
    publishActive other hm hp' := by
      rcases mem_append.mp hm with old | new
      · exact hs.publishActive other old hp'
      · obtain ⟨entry, hfo, -⟩ := ha
        simp [mem_singleton.mp new, hsa, hfo]
    accounted := by
      have hac := hs.accounted
      simp only [hf, length_cons, inFlight, length_append, length_nil] at *
      omega
    withinGlobal := by
      simp only [inFlight, hse, length_append, length_cons, length_nil]
      omega
    withinRequest request := by
      have hb := hs.withinRequest request
      simp only [branches, hf, countP_cons, inFlight, countP_append, countP_nil, hsa] at *
      omega }

end PreparedHead

theorem Sound.detach (sound : ledger.Sound) (settled : ledger.outside = []) :
    Sound { ledger with submitted := [], outside := ledger.submitted } := by
  have same : ledger.inFlight = ledger.submitted := by simp [inFlight, settled]
  refine sound.reflight (by rw [same, nil_append]) (fun id => ?_) (by simp)
  exact (sound.staged id).congr rfl .rfl .rfl fun _ _ => by rw [same]; rfl

section OutsideEntry

variable {left right : List (Submitted W B O)} {work : Submitted W B O}
  (ht : ledger.outside = left ++ work :: right)

include ht

theorem inFlight_perm : ledger.inFlight.Perm (work :: (ledger.submitted ++ (left ++ right))) := by
  simp only [inFlight, ht, ← append_assoc]
  exact perm_middle

theorem Sound.mem_inFlight_take (hso : ledger.Sound) (other : Submitted W B O) :
    other ∈ ledger.submitted ++ (left ++ right) ↔ other ∈ ledger.inFlight ∧ other.id ≠ work.id := by
  have ho := inFlight_perm ht
  have hs := (ho.map (·.id)).nodup_iff.mp hso.flightDistinct
  rw [map_cons, nodup_cons] at hs
  rw [ho.mem_iff, mem_cons]
  constructor
  · intro hm
    exact ⟨.inr hm, fun hsa => hs.1 (mem_map.mpr ⟨other, hm, hsa⟩)⟩
  · rintro ⟨rfl | hm, hd⟩
    · exact absurd rfl hd
    · exact hm

theorem Sound.leave (hs : ledger.Sound) {stage : WorkLifecycle}
    (hse : stage = .committed ∨ stage = .abandoned ∨ stage = .failed)
    (hma : lifecycle = update ledger.lifecycle work.id (some stage)) :
    Sound { ledger with outside := left ++ right, lifecycle, accepted := ledger.accepted - 1 } := by
  subst hma
  have hh : ledger.InFlight work.id := ⟨work, by simp [inFlight, ht], rfl⟩
  have hf := (hs.staged work.id).exclusive_flight hh
  have hme := hs.mem_inFlight_take ht
  have ho := inFlight_perm ht
  exact { hs with
    staged := by
      refine hs.staged_update rfl (fun hst => Staged.of_settled hst hse ?_) (fun _ _ => .rfl)
        (fun _ _ => .rfl) fun other hn => (hme other).trans (and_iff_left hn)
      rintro (hq | prepared | ⟨other, hm, he⟩)
      · exact hf.1 hq
      · exact hf.2 prepared
      · exact ((hme other).mp hm).2 he
    flightIssued other hm := hs.flightIssued other ((hme other).mp hm).1
    flightDistinct := (nodup_cons.mp ((ho.map (·.id)).nodup_iff.mp hs.flightDistinct)).2
    accounted := by
      have ha := hs.accounted
      rw [ho.length_eq, length_cons] at ha
      simp only [inFlight]
      omega
    withinQueue := (Nat.sub_le ..).trans hs.withinQueue
    withinGlobal := by
      have hb := hs.withinGlobal
      rw [ho.length_eq, length_cons] at hb
      simp only [inFlight]
      omega
    withinRequest request := by
      have hb := hs.withinRequest request
      simp only [branches, ho.countP_eq, countP_cons] at hb
      simp only [branches, inFlight]
      omega }

theorem Sound.free (hs : ledger.Sound) {cancelledAt : Nat}
    (hc : work.disposition = .abandon cancelledAt) :
    Sound { ledger with outside := left ++ right, accepted := ledger.accepted - 1 } := by
  have hst := (hs.staged work.id).flight work (by simp [inFlight, ht]) rfl
  rw [hc] at hst
  refine hs.leave ht (.inr (.inl rfl)) ?_
  rw [← show _ = some WorkLifecycle.abandoned from hst, update_eq_self]

theorem Sound.condemn (hs : ledger.Sound) :
    Sound { ledger with
      outside := left ++ { work with disposition := .fail } :: right
      lifecycle := update ledger.lifecycle work.id (some .failed) } := by
  have hh : ledger.InFlight work.id := ⟨work, by simp [inFlight, ht], rfl⟩
  have hf := (hs.staged work.id).exclusive_flight hh
  have hme := hs.mem_inFlight_take ht
  have ho := inFlight_perm ht
  have hr : (ledger.submitted ++ (left ++ { work with disposition := .fail } :: right)).Perm
      ({ work with disposition := .fail } :: (ledger.submitted ++ (left ++ right))) := by
    simp only [← append_assoc]
    exact perm_middle
  refine hs.reflight ((hr.map (·.id)).trans (ho.map (·.id)).symm) (hs.staged_update rfl
    (fun hst => Staged.of_stage hst (by simp) hf.1 hf.2 fun other hm heq => ?_)
    (fun _ _ => .rfl) (fun _ _ => .rfl) fun other hn => ?_) hs.publishActive
  · rcases mem_cons.mp (hr.mem_iff.mp hm) with rfl | he
    · rfl
    · exact absurd heq ((hme other).mp he).2
  · refine hr.mem_iff.trans (mem_cons.trans ?_)
    rw [hme, and_iff_left hn]
    refine or_iff_right ?_
    rintro rfl
    exact hn rfl

end OutsideEntry

@[simp] theorem abandonIf_id (closed : RequestId → Bool) (now : Nat)
    (work : Submitted W B O) : (abandonIf closed now work).id = work.id := by
  unfold abandonIf
  split <;> rfl

variable {closed : RequestId → Bool} {now : Nat}

theorem abandonIf_of_open (hk : closed work.id.request = false ∨ work.disposition ≠ .publish) :
    abandonIf closed now work = work := by
  refine if_neg ?_
  rcases hk with hk | hk <;> simp [hk]

theorem abandonIf_of_closed (he : closed work.id.request = true)
    (hp : work.disposition = .publish) :
    (abandonIf closed now work).disposition = .abandon now := by
  simp [abandonIf, he, hp]

theorem abandonIf_publish (hp : (abandonIf closed now work).disposition = .publish) :
    closed work.id.request = false ∧ work.disposition = .publish := by
  unfold abandonIf at hp
  split at hp
  · cases hp
  · simp_all

theorem mem_map_abandonIf {entries : List (Submitted W B O)}
    (hk : ∀ original ∈ entries, original.id = work.id →
      closed original.id.request = false ∨ original.disposition ≠ .publish) :
    work ∈ entries.map (abandonIf closed now) ↔ work ∈ entries := by
  have hsa : ∀ original ∈ entries, original.id = work.id →
      abandonIf closed now original = original :=
    fun original hl hi => abandonIf_of_open (hk original hl hi)
  rw [mem_map]
  refine ⟨?_, fun hl => ⟨work, hl, hsa work hl rfl⟩⟩
  rintro ⟨original, hl, rfl⟩
  rwa [hsa original hl (abandonIf_id ..).symm]

variable (closed)

theorem map_abandonIf_id (now : Nat) (entries : List (Submitted W B O)) :
    (entries.map (abandonIf closed now)).map (·.id) = entries.map (·.id) := by
  simp

theorem countP_abandonIf (now : Nat) (request : RequestId) (entries : List (Submitted W B O)) :
    (entries.map (abandonIf closed now)).countP (fun work => work.id.request = request) =
      entries.countP fun work => work.id.request = request := by
  simp [comp_def]

variable {closed}

theorem Sound.flight_unique (hs : ledger.Sound) {first second : Submitted W B O}
    (hh : first ∈ ledger.inFlight) (ht : second ∈ ledger.inFlight)
    (hsa : first.id = second.id) : first = second :=
  inj_on_of_nodup_map hs.flightDistinct hh ht hsa

theorem Sound.attach (hs : ledger.Sound) (ht : ledger.submitted = []) (hma : ∀ id, lifecycle id =
      if ∃ work ∈ ledger.outside, work.id = id ∧ work.disposition = .publish ∧
        ledger.requests[id.request]? = none then some .abandoned
      else ledger.lifecycle id) :
    Sound { ledger with
      submitted := ledger.outside.map
        (abandonIf (fun request => !ledger.requests.contains request) now)
      outside := []
      lifecycle } := by
  have hft : ledger.inFlight = ledger.outside := by simp [inFlight, ht]
  have hi : ∀ request : RequestId, (!ledger.requests.contains request) = true ↔
      ledger.requests[request]? = none := by
    intro request
    rw [TreeMap.contains_eq_isSome_getElem?]
    cases ledger.requests[request]? <;> simp
  refine hs.reflight (by rw [append_nil, map_abandonIf_id, hft]) (fun id => ?_) ?_
  · by_cases ho : ∃ work ∈ ledger.outside, work.id = id ∧ work.disposition = .publish ∧
        ledger.requests[id.request]? = none
    · have hst : lifecycle id = some .abandoned := by rw [hma, if_pos ho]
      obtain ⟨work, hm, rfl, hp, hen⟩ := ho
      have hh : work ∈ ledger.inFlight := by rwa [hft]
      have hfr := (hs.staged work.id).exclusive_flight ⟨work, hh, rfl⟩
      refine .of_stage hst (by simp) hfr.1 hfr.2 fun other hm' he => ?_
      simp only [inFlight, append_nil, mem_map] at hm'
      obtain ⟨original, hl, rfl⟩ := hm'
      rw [abandonIf_id] at he
      have : original = work := hs.flight_unique (by rwa [hft]) hh he
      subst this
      rw [abandonIf_of_closed ((hi _).mpr hen) hp]
      rfl
    · have hst : lifecycle id = ledger.lifecycle id := by rw [hma, if_neg ho]
      refine (hs.staged id).congr hst .rfl .rfl fun other he => ?_
      rw [hft]
      simp only [inFlight, append_nil]
      refine mem_map_abandonIf fun original hl hsa => ?_
      by_contra closed
      simp only [not_or, Bool.not_eq_false, not_not, hi] at closed
      exact ho ⟨original, hl, hsa.trans he, closed.2, he ▸ hsa ▸ closed.1⟩
  · intro other hm hp
    obtain ⟨original, hl, rfl⟩ := mem_map.mp hm
    rw [abandonIf_id]
    intro hen
    have hop := (abandonIf_publish hp).1
    rw [(hi _).mpr hen] at hop
    cases hop

namespace Closes

variable {closed : RequestId → Bool} (hc : Closes closed ledger after)

include hc

theorem lookup_of_open (ho : closed request = false) :
    after.requests[request]? = ledger.requests[request]? := by
  rw [hc.requests, ho]
  rfl

theorem lookup_of_closed (he : closed request = true) : after.requests[request]? = none := by
  rw [hc.requests, he]
  rfl

theorem total_eq (f : Request W S → Nat) : total f ledger.requests =
      total f (ledger.requests.filter fun request _ => closed request) + total f after.requests := by
  rw [← total_filter_add f ledger.requests closed]
  congr 1
  refine total_congr f fun request => ?_
  rw [lookup_filter, hc.requests]
  cases closed request <;> rfl

theorem mem_prepared (work : Prepared W B) :
    work ∈ after.prepared ↔ work ∈ ledger.prepared ∧ closed work.id.request = false := by
  rw [hc.prepared, mem_filter, Bool.not_eq_true']

theorem issued (hd : ledger.Directory) (his : ledger.Issued id) : after.Issued id := by
  rcases his with ⟨entry, hf, hb⟩ | he
  · cases ho : closed id.request with
    | true => exact .inr (hc.ended _ entry ho hf)
    | false => exact .inl ⟨entry, by rw [hc.lookup_of_open ho, hf], hb⟩
  · have hi : ledger.requests[id.request]? = none := by
      by_contra ha
      exact he (hd.exclusive _ ha)
    refine .inr ?_
    rwa [hc.terminal _ (.inr hi)]

theorem directory (hd : ledger.Directory) : after.Directory := by
  have hf : ∀ {request : RequestId} {entry}, after.requests[request]? = some entry →
      closed request = false ∧ ledger.requests[request]? = some entry := by
    intro request entry hf
    cases ho : closed request with
    | true => rw [hc.lookup_of_closed ho] at hf; cases hf
    | false => exact ⟨rfl, by rwa [hc.lookup_of_open ho] at hf⟩
  refine ⟨?_, ?_, ?_, ?_, ?_, ?_⟩
  · exact fun request entry ha => hd.queueOwned request entry (hf ha).2
  · exact fun request entry ha => hd.queueOrdered request entry (hf ha).2
  · intro request ha
    obtain ⟨entry, hl⟩ := Option.ne_none_iff_exists'.mp ha
    obtain ⟨ho, hb⟩ := hf hl
    rw [hc.terminal request (.inl ho)]
    exact hd.exclusive request (by simp [hb])
  · rw [hc.ready]
    exact hd.readyDistinct.filter _
  · intro request
    rw [hc.ready, mem_filter, hd.readyQueued, Bool.not_eq_true']
    constructor
    · rintro ⟨⟨entry, hb, hq⟩, ho⟩
      exact ⟨entry, by rw [hc.lookup_of_open ho, hb], hq⟩
    · rintro ⟨entry, hl, hq⟩
      exact ⟨⟨entry, (hf hl).2, hq⟩, (hf hl).1⟩
  · have hbo := hd.withinActive
    rw [hc.limits, size_eq_total]
    rw [size_eq_total, hc.total_eq] at hbo
    omega

theorem staged (hso : ledger.Sound) (id : WorkId) : after.Staged id := by
  obtain ⟨now, hsd⟩ := hc.submitted
  have hf : after.inFlight = ledger.submitted.map (abandonIf closed now) ++ ledger.outside := by
    rw [inFlight, hsd, hc.outside]
  have hsu : ∀ work ∈ ledger.submitted, work ∈ ledger.inFlight := by
    simp +contextual [inFlight]
  have hou : ∀ work ∈ ledger.outside, work ∈ ledger.inFlight := by
    simp +contextual [inFlight]
  have hor : ∀ work ∈ after.inFlight, ∃ original ∈ ledger.inFlight, original.id = work.id := by
    intro work hm
    rw [hf, mem_append, mem_map] at hm
    rcases hm with ⟨original, hl, rfl⟩ | hl
    · exact ⟨original, hsu original hl, by simp⟩
    · exact ⟨work, hou work hl, rfl⟩
  cases ho : closed id.request with
  | false =>
    -- Nothing of an open request moves.
    refine (hso.staged id).congr (hc.lifecycle id (by simp [ho])) ?_ ?_ ?_
    · simp only [InQueue, hc.lookup_of_open ho]
    · simp only [InPrepared, hc.mem_prepared]
      constructor
      · rintro ⟨work, ⟨hm, -⟩, hsa⟩
        exact ⟨work, hm, hsa⟩
      · rintro ⟨work, hm, rfl⟩
        exact ⟨work, ⟨hm, ho⟩, rfl⟩
    · rintro work rfl
      rw [hf, inFlight, mem_append, mem_append, mem_map_abandonIf fun _ _ hsa => .inl (hsa ▸ ho)]
  | true =>
    have hun : ¬ after.InQueue id := by
      rintro ⟨entry, hfo, -⟩
      rw [hc.lookup_of_closed ho] at hfo
      cases hfo
    have hu : ¬ after.InPrepared id := by
      rintro ⟨work, hm, rfl⟩
      rw [hc.mem_prepared, ho] at hm
      cases hm.2
    by_cases hw : ledger.InQueue id ∨ ledger.InPrepared id
    · have hg : ¬ after.InFlight id := by
        rintro ⟨work, hm, rfl⟩
        obtain ⟨original, hh, hsa⟩ := hor work hm
        have ha : ledger.InFlight work.id := ⟨original, hh, hsa⟩
        rcases hw with hq | prepared
        · exact ((hso.staged _).exclusive_queue hq).2 ha
        · exact ((hso.staged _).exclusive_prepared prepared).2 ha
      have hfr : ¬ after.Holds id := by
        rintro (hq | prepared | hf)
        exacts [hun hq, hu prepared, hg hf]
      rcases hc.discarded id ho hw with hs | hs
      · exact Staged.of_settled hs (by simp) hfr
      · exact Staged.of_settled hs (by simp) hfr
    · rw [not_or] at hw
      by_cases hpu : ∃ work ∈ ledger.submitted, work.id = id ∧ work.disposition = .publish
      · obtain ⟨work, hl, rfl, hp⟩ := hpu
        refine .of_stage (hc.abandoned work hl ho hp) (by simp) hun hu fun other hm hsa => ?_
        rw [hf, mem_append, mem_map] at hm
        rcases hm with ⟨original, hl', rfl⟩ | hoe
        · rw [abandonIf_id] at hsa
          have : original = work := hso.flight_unique (hsu _ hl') (hsu _ hl) hsa
          subst this
          rw [abandonIf_of_closed ho hp]
          rfl
        · -- An identity is not both submitted and outside.
          have hd := hso.flightDistinct
          rw [inFlight, map_append, nodup_append] at hd
          exact absurd hsa.symm (hd.2.2 _ (mem_map_of_mem hl) _ (mem_map_of_mem hoe))
      · have hs : after.lifecycle id = ledger.lifecycle id := by
          refine hc.lifecycle id fun _ => ⟨hw.1, hw.2, ?_⟩
          exact fun work hl hp hsa => hpu ⟨work, hl, hsa, hp⟩
        refine (hso.staged id).congr hs (iff_of_false hun hw.1) (iff_of_false hu hw.2) ?_
        rintro work rfl
        rw [hf, inFlight, mem_append, mem_append, mem_map_abandonIf fun original hl hsa =>
          .inr fun hp => hpu ⟨original, hl, hsa, hp⟩]

theorem sound (hs : ledger.Sound) : after.Sound := by
  obtain ⟨now, hsu⟩ := hc.submitted
  have hf : after.inFlight = ledger.submitted.map (abandonIf closed now) ++ ledger.outside := by
    rw [inFlight, hsu, hc.outside]
  have ids : after.inFlight.map (·.id) = ledger.inFlight.map (·.id) := by
    rw [hf, inFlight, map_append, map_append, map_abandonIf_id]
  have hle : after.inFlight.length = ledger.inFlight.length := by
    simpa using congrArg List.length ids
  refine { toDirectory := hc.directory hs.toDirectory
           staged := hc.staged hs
           preparedActive := ?_, preparedDistinct := ?_, flightIssued := ?_, flightDistinct := ?_
           publishActive := ?_, accounted := ?_, withinQueue := ?_, withinGlobal := ?_
           withinRequest := ?_ }
  · intro work hm
    obtain ⟨hl, ho⟩ := (hc.mem_prepared work).mp hm
    obtain ⟨entry, hfo, hb⟩ := hs.preparedActive work hl
    exact ⟨entry, by rw [hc.lookup_of_open ho, hfo], hb⟩
  · rw [hc.prepared]
    exact hs.preparedDistinct.sublist (filter_sublist.map _)
  · intro work hm
    have hl : work.id ∈ ledger.inFlight.map (·.id) := ids ▸ mem_map_of_mem hm
    obtain ⟨original, hh, hsa⟩ := mem_map.mp hl
    exact hsa ▸ hc.issued hs.toDirectory (hs.flightIssued original hh)
  · rw [ids]
    exact hs.flightDistinct
  · intro work hm hp
    rw [hsu] at hm
    obtain ⟨original, hl, rfl⟩ := mem_map.mp hm
    obtain ⟨ho, hp⟩ := abandonIf_publish hp
    rw [abandonIf_id, hc.lookup_of_open ho]
    exact hs.publishActive original hl hp
  · have ha := hs.accounted
    have hsp : ledger.prepared.length =
        (ledger.prepared.countP fun work => closed work.id.request) + after.prepared.length := by
      rw [hc.prepared, ← countP_eq_length_filter]
      simpa using length_eq_countP_add_countP fun work : Prepared W B => closed work.id.request
    rw [hc.total_eq] at ha
    rw [hc.accepted, hle]
    omega
  · rw [hc.accepted, hc.limits]
    exact (Nat.sub_le ..).trans hs.withinQueue
  · rw [hle, hc.limits]
    exact hs.withinGlobal
  · intro request
    have hbo := hs.withinRequest request
    have hfe : (after.prepared.countP fun work => work.id.request = request) ≤
        ledger.prepared.countP fun work => work.id.request = request := by
      rw [hc.prepared]
      exact filter_sublist.countP_le
    simp only [branches, inFlight, hsu, hc.outside, hc.limits, countP_append, countP_abandonIf] at *
    omega

end Closes

variable {permits : S → Bool}

theorem Sound.transition (hs : ledger.Sound) (hst : Transition permits ledger after) :
    after.Sound := by
  cases hst with
  | register request state hse hi hfr hr => exact hs.register state hi hfr hr
  | access request entry state hse hid ha => exact hs.setState ha state _
  | enqueue request entry work lifecycle hse ha hr hre hm => exact hs.enqueue ha hr hre hm
  | rotate ready hsa =>
    exact { hs with
      readyDistinct := hsa.nodup_iff.mpr hs.readyDistinct
      readyQueued request := hsa.mem_iff.trans (hs.readyQueued request)
      staged id := (hs.staged id).congr rfl .rfl .rfl fun _ _ => .rfl }
  | prepare request rest entry queued pending prepared hse hf ha hq hpe hr hsa =>
    exact hs.prepare hf ha hq hr hsa
  | reject request rest entry queued pending hse hf ha hq => exact hs.reject hf ha hq
  | submit prepared rest work hse hf hr hsa hp => exact hs.submit hse hf hr hsa hp
  | refuse prepared rest hse hf => exact hs.refuse hf
  | close closed hcl => exact hcl.sound hs
  | detach hse => exact hs.detach hse
  | settle left right work stage ht hfi =>
    exact hs.leave ht (by rcases hfi with rfl | rfl <;> simp) rfl
  | free left right work cancelledAt ht hc => exact hs.free ht hc
  | commit left right work entry state success ht hp ha =>
    have hpu := hs.setState ha state (.committed work.id entry.state state success ::
      ledger.history)
    have hse : (if success then WorkLifecycle.committed else .failed) = .committed ∨
        (if success then WorkLifecycle.committed else .failed) = .abandoned ∨
        (if success then WorkLifecycle.committed else .failed) = .failed := by
      cases success <;> simp
    exact hpu.leave (by exact ht) hse rfl
  | condemn left right work ht => exact hs.condemn ht
  | attach now lifecycle ht hm => exact hs.attach ht hm

/-- The ledger a sequence of moves can lead to. -/
abbrev Reaches (permits : S → Bool) (before after : Ledger W S B O) : Prop :=
  Relation.ReflTransGen (Transition permits) before after

theorem Sound.reaches (hs : ledger.Sound) (hm : Reaches permits ledger after) : after.Sound := by
  induction hm with
  | refl => exact hs
  | tail _ hst ih => exact ih.transition hst

/-- An identity is given up: its idle request is released or its terminal status forgotten. -/
inductive Frees (request : RequestId) :
    Ledger W S B O → Ledger W S B O → Prop
  | release {ledger : Ledger W S B O} (entry : Request W S)
      (requests : TreeMap RequestId (Request W S)) (settled : ledger.outside = [])
      (active : ledger.requests[request]? = some entry) (drained : entry.pending = [])
      (idle : ledger.branches request = 0)
      (removed : ∀ other : RequestId,
        requests[other]? = if other = request then none else ledger.requests[other]?) :
      Frees request ledger { ledger with requests }
  | forget {ledger : Ledger W S B O} (settled : ledger.outside = [])
      (ended : ledger.terminal request ≠ none)
      (quiet : ∀ work ∈ ledger.submitted, work.id.request ≠ request) :
      Frees request ledger { ledger with
        terminal := update ledger.terminal request none }

theorem ne_of_branches_eq_zero (hi : ledger.branches request = 0) :
    (∀ work ∈ ledger.prepared, work.id.request ≠ request) ∧
      ∀ work ∈ ledger.inFlight, work.id.request ≠ request := by
  simpa [branches] using hi

theorem Sound.frees (hs : ledger.Sound) (hfr : Frees request ledger after) : after.Sound := by
  cases hfr with
  | release entry requests hse ha hd hi hr =>
    obtain ⟨hu, hg⟩ := ne_of_branches_eq_zero hi
    have hk : ∀ {id : WorkId}, id.request ≠ request → ledger.Active id →
        ∃ entry, requests[id.request]? = some entry ∧ id.sequence < entry.next := by
      rintro id other ⟨known, hfo, hb⟩
      exact ⟨known, by rw [hr, if_neg other, hfo], hb⟩
    have hw := hs.withinActive
    have hac := hs.accounted
    have ht : ∀ f : Request W S → Nat, total f ledger.requests = f entry + total f requests := by
      intro f
      rw [total_erase f ha]
      congr 1
      exact total_congr f fun other => by rw [lookup_erase, hr]
    exact { hs with
      queueOwned := by have := hs.queueOwned; grind
      queueOrdered := by have := hs.queueOrdered; grind
      exclusive := by have := hs.exclusive; grind
      readyQueued := by have := hs.readyQueued; grind
      withinActive := by
        rw [size_eq_total, ht] at hw
        show requests.size ≤ ledger.limits.maxActiveRequests
        rw [size_eq_total]
        omega
      staged id := by
        refine (hs.staged id).congr rfl ?_ .rfl fun _ _ => .rfl
        simp only [InQueue, hr]
        split
        · rename_i hsa
          simp [hsa, ha, hd]
        · rfl
      preparedActive work hm := hk (hu work hm) (hs.preparedActive work hm)
      flightIssued work hm := (hs.flightIssued work hm).imp (hk (hg work hm)) id
      publishActive work hm hp := by
        rw [hr, if_neg (hg work (by simp [inFlight, hm]))]
        exact hs.publishActive work hm hp
      accounted := by
        rw [ht] at hac
        simpa [queueLength, hd, inFlight] using hac }
  | forget hse he hq =>
    have hf : ledger.inFlight = ledger.submitted := by simp [inFlight, hse]
    exact { hs with
      exclusive other ha := by
        by_cases hsa : other = request
        · simp [hsa]
        · simpa [hsa] using hs.exclusive other ha
      staged id := (hs.staged id).congr rfl .rfl .rfl fun _ _ => .rfl
      flightIssued work hm := by
        have hh : work ∈ ledger.inFlight := hm
        have other : work.id.request ≠ request := hq work (by rwa [hf] at hh)
        refine (hs.flightIssued work hm).imp id fun he => ?_
        simpa [update_of_ne other] using he }

end Eredu.Scheduling.Ledger
