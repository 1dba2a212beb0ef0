import Eredu.Checkpoint.BoundedReads

/-!
# Leases from the file and from memory

What a shard keeps in memory for a tensor is the payload of that tensor, through
any series of requests and releases. A lease served from it therefore has the
bytes that a read of the file gives.
-/

namespace Eredu.Checkpoint

open Word Nat List Effect Except RowMajor
open Effect (Concludes)
open RowMajor (slice)

theorem concludes_capacity (cause : StoreError) (ranges : List Span) :
    Concludes (capacity cause ranges)
      (fun _ => (ranges.map Span.len).sum ≤ maximum) fun _ => True := by
  have run : ∀ start, start ≤ maximum →
      Concludes (ranges.foldlM
          (fun total range => required cause (checkedAdd total range.len)) start)
        (fun _ => start + (ranges.map Span.len).sum ≤ maximum) fun _ => True := by
    induction ranges with
    | nil => exact fun start hfi => hfi
    | cons range ranges ih =>
      intro start _
      apply (concludes_required fun next hf => checkedAdd_eq_some.mp hf).bind
      rintro next ⟨rfl, hs⟩
      apply (ih _ hs).mono
      intro _ hb
      rw [map_cons, sum_cons, ← add_assoc]
      exact hb
  apply (run 0 (zero_le _)).mono
  intro _ hb
  rwa [zero_add] at hb

theorem capacity_eq_ok (cause : StoreError) {ranges : List Span}
    (hf : (ranges.map Span.len).sum ≤ maximum) : ∃ total, capacity cause ranges = .ok total := by
  have run : ∀ start, start + (ranges.map Span.len).sum ≤ maximum →
      ∃ total, ranges.foldlM
        (fun total range => required cause (checkedAdd total range.len)) start = .ok total := by
    clear hf
    induction ranges with
    | nil => exact fun start _ => ⟨start, rfl⟩
    | cons range ranges ih =>
      intro start hf
      rw [map_cons, sum_cons, ← add_assoc] at hf
      have hs : start + range.len ≤ maximum := (le_add_right _ _).trans hf
      rw [foldlM_cons, checkedAdd, if_pos hs]
      exact ih _ hf
  apply run 0
  rwa [zero_add]

section Ranges

variable {payload : List UInt8} {ranges : List Span}
  (inside : ∀ range ∈ ranges, range.Inside payload.length)

include inside

theorem mapM_copyRange (key : String) : ranges.mapM (copyRange key payload) =
      pure (ranges.map fun range => slice range.start range.len payload) := by
  apply mapM_eq_pure
  intro range hl
  obtain ⟨ho, hb⟩ := inside range hl
  exact if_neg (not_or.mpr ⟨not_lt.mpr ho, not_lt.mpr hb⟩)

theorem mapM_readRange {file : List UInt8} {start : Nat} (hsm : file.length ≤ maximum)
    (hf : start + payload.length ≤ file.length) (hs : payload = slice start payload.length file) :
    ranges.mapM (readRange file start) =
      pure (ranges.map fun range => slice range.start range.len payload) := by
  apply mapM_eq_pure
  intro range hl
  obtain ⟨ho, hb⟩ := inside range hl
  have hle : range.start + range.len = range.finish := Nat.add_sub_cancel' ho
  have hab : checkedAdd start range.start = some (start + range.start) :=
    checkedAdd_eq_some.mpr ⟨rfl, by omega⟩
  rw [readRange, hab, required_some]
  have ha : ¬ file.length < start + range.start + range.len := by omega
  have hn : slice range.start range.len payload = slice (start + range.start) range.len file := by
    rw [hs]
    exact slice_slice (by omega)
  show (if _ then _ else _) = _
  rw [if_neg ha, hn]

end Ranges

theorem concludes_planned_inside (key : String) (bits : Nat) (shape output : List Nat)
    (payload : List UInt8) (selection : TensorSelection) (policy : ReadPolicy)
    (hv : selection.Valid shape output) :
    Concludes (planSafetensorsReads key bits shape payload.length selection output policy)
      (fun plan => ∀ range ∈ plan.ranges, range.Inside payload.length) fun _ => True := by
  have hw : ∀ range ∈ [(⟨0, payload.length⟩ : Span)], range.Inside payload.length := by
    intro range hl
    rw [mem_singleton.mp hl]
    exact ⟨zero_le _, le_refl _⟩
  have he : Concludes (if policy = .requireBounded then do
        let ranges ← planAxis key bits shape payload.length selection output
        return ⟨ranges, true⟩
      else
        .ok (.single ⟨0, payload.length⟩ false))
      (fun plan : SafetensorsReadPlan => ∀ range ∈ plan.ranges, range.Inside payload.length)
      fun _ => True := by
    split
    · apply (concludes_planAxis key bits shape payload selection output).bind
      rintro ranges ⟨_, _, _, _, _, _, _, _, inside⟩
      exact inside
    · exact hw
  unfold planSafetensorsReads
  dsimp only
  split
  · exact hw
  · next offsetElements selected scalar _ =>
    apply (concludes_contiguousSpan key scalar offsetElements selected).bind
    rintro span ⟨start, finish⟩
    split
    · trivial
    rename_i inside
    intro range hl
    rw [mem_singleton.mp hl]
    refine ⟨?_, not_lt.mp inside⟩
    rw [start, finish]
    exact le_add_right _ _
  · next start finish _ _ =>
    obtain ⟨rows, hp, ho, hb, _⟩ := hv
    apply (concludes_rowBytes key shape payload.length).bind
    rintro row ⟨_, hle⟩
    rw [(exists_axis hp).2.2] at hle
    apply (concludes_required fun value hf => (checkedMul_eq_some.mp hf).1).bind
    rintro byteStart rfl
    apply (concludes_required fun value hf => (checkedMul_eq_some.mp hf).1).bind
    rintro byteFinish rfl
    intro range hl
    rw [mem_singleton.mp hl, hle]
    exact ⟨mul_le_mul_right _ ho.le, mul_le_mul_right _ hb⟩
  · exact he

variable {cached : FullTensors}

namespace Shard

variable {shard : Shard} {key : String} {tensor : TensorInfo}

theorem length_payload (hk : shard.info key = some tensor) :
    (shard.payload tensor).length = tensor.dataFinish - tensor.dataStart := by
  obtain ⟨ho, hf, _⟩ := shard.admitted key tensor hk
  apply length_slice
  omega

theorem concludes_fetch (opens : Bool) (payloadStart : Nat) (ranges : List Span)
    (kept : Option (List UInt8)) (length : Nat) (hf : length ≤ maximum) :
    Concludes (shard.fetch opens key payloadStart (ranges = [⟨0, length⟩]) ranges kept)
      (fun _ => opens = true ∧ (ranges.map Span.len).sum ≤ maximum) fun _ => True := by
  cases opens with
  | false =>
    cases kept with
    | some bytes => trivial
    | none => exact (concludes_capacity _ ranges).bind fun _ _ => trivial
  | true =>
    cases kept with
    | some bytes =>
      rw [fetch, if_pos rfl]
      split
      · next hc =>
        rw [of_decide_eq_true hc]
        exact ⟨rfl, by simpa [Span.len] using hf⟩
      · apply (concludes_capacity _ ranges).bind
        intro _ hs
        apply (concludes_self _).bind
        exact fun _ _ => ⟨rfl, hs⟩
    | none =>
      apply (concludes_capacity _ ranges).bind
      intro _ hs
      apply (concludes_self _).bind
      exact fun _ _ => ⟨rfl, hs⟩

theorem fetch_eq_ok (hk : shard.info key = some tensor) {ranges : List Span}
    (inside : ∀ range ∈ ranges, range.Inside (shard.payload tensor).length)
    (hs : (ranges.map Span.len).sum ≤ maximum) {kept : Option (List UInt8)}
    (hf : ∀ bytes, kept = some bytes → bytes = shard.payload tensor) :
    shard.fetch true key (shard.payloadOffset + tensor.dataStart)
        (ranges = [⟨0, tensor.dataFinish - tensor.dataStart⟩]) ranges kept =
      .ok (bytesAt (shard.payload tensor) ranges) := by
  have hl := length_payload hk
  obtain ⟨ho, hfi, _⟩ := shard.admitted key tensor hk
  cases kept with
  | some bytes =>
    cases hf bytes rfl
    rw [fetch, if_pos rfl]
    split
    · next hco =>
      rw [of_decide_eq_true hco, bytesAt_single, ← hl]
      exact congrArg ok (slice_all _).symm
    · obtain ⟨total, hc⟩ := capacity_eq_ok
        (.overflow s!"cached selected payload length for \"{key}\"") hs
      rw [copySafetensorsRanges, hc, mapM_copyRange inside]
      exact congrArg ok flatMap_def.symm
  | none =>
    obtain ⟨total, hc⟩ := capacity_eq_ok (.overflow "selected payload length") hs
    have hst : shard.payload tensor = slice (shard.payloadOffset + tensor.dataStart)
        (shard.payload tensor).length shard.file := by
      rw [hl]
      rfl
    rw [fetch, readSafetensorsRanges, hc, ok_bind, if_pos rfl,
      mapM_readRange inside shard.small (by omega) hst]
    exact congrArg ok flatMap_def.symm

def Keeps (shard : Shard) (cached : FullTensors) : Prop :=
  ∀ key tensor bytes, shard.info key = some tensor → cached key = some bytes →
    bytes = shard.payload tensor

theorem keeps_insert (hk : shard.Keeps cached)
    (hkn : shard.info key = some tensor) {bytes : List UInt8} (hsa : bytes = shard.payload tensor) :
    shard.Keeps fun other => if other = key then some bytes else cached other := by
  intro other otherTensor held ho hi
  dsimp only at hi
  split at hi
  · next hs =>
    rw [hs, hkn] at ho
    cases ho
    cases hi
    exact hsa
  · exact hk other otherTensor held ho hi

/-- What a lease says and what is kept after it, in terms of the payload. -/
structure Serves (shard : Shard) (cached : FullTensors) (request : TensorReadRequest)
    (tensor : TensorInfo) (plan : SafetensorsReadPlan) (lease : SafetensorsLease)
    (kept : FullTensors) : Prop where
  known : shard.info request.key = some tensor
  valid : validateSelection request.key tensor.shape request.selection = .ok lease.outputShape
  planned : planSafetensorsReads request.key tensor.bits tensor.shape (shard.payload tensor).length
    request.selection lease.outputShape request.policy = .ok plan
  bytes : lease.bytes = bytesAt (shard.payload tensor) plan.ranges
  keeps : shard.Keeps kept

/-- Every lease is served in terms of the payload, and the same request without anything kept is
served with the same bytes. -/
theorem concludes_acquire (hke : shard.Keeps cached) (opens : Bool) (request : TensorReadRequest) :
    Concludes (shard.acquire opens cached request)
      (fun served => ∃ tensor plan, shard.Serves cached request tensor plan served.1 served.2 ∧
        ∃ fresh kept, shard.acquire opens (fun _ => none) request = .ok (fresh, kept) ∧
          fresh.bytes = served.1.bytes ∧ fresh.outputShape = served.1.outputShape) fun _ => True := by
  unfold acquire
  apply (concludes_self _).bind
  intro tensor hfo
  have hk := required_eq_ok.mp hfo
  have hl := length_payload hk
  obtain ⟨ho, hfi, _⟩ := shard.admitted _ tensor hk
  apply (concludes_self _).bind
  intro output ha
  apply (concludes_self _).bind
  intro payloadStart his
  cases (checkedAdd_eq_some.mp (required_eq_ok.mp his)).1
  apply (concludes_self _).bind
  intro tensorLen hi
  cases (checkedSub_eq_some.mp (required_eq_ok.mp hi)).2
  apply (concludes_self _).bind
  intro plan hp
  rw [← hl] at hp
  have hv := ((concludes_validateSelection _ _ _).of_ok ha).1
  have inside := (concludes_planned_inside _ _ _ _ _ _ _ hv).of_ok hp
  apply (concludes_self _).bind
  intro bytes hf
  obtain ⟨rfl, hsm⟩ := (concludes_fetch _ _ _ _ _ (by have := shard.small; omega)).of_ok hf
  have hs : bytes = bytesAt (shard.payload tensor) plan.ranges := by
    rw [fetch_eq_ok hk inside hsm fun kept hh => hke _ _ _ hk hh] at hf
    exact (ok.inj hf).symm
  refine ⟨tensor, plan, ⟨hk, ha, hp, hs, ?_⟩, ?_⟩
  · show shard.Keeps (if _ then _ else _)
    split
    · next hc =>
      have hw := of_decide_eq_true (Bool.and_eq_true_iff.mp hc).1
      rw [hw, bytesAt_single, ← hl] at hs
      rw [hs]
      exact keeps_insert hke hk (slice_all _)
    · exact hke
  · have hn : ∀ bytes, (none : Option (List UInt8)) = some bytes → bytes = shard.payload tensor := by
      rintro _ ⟨⟩
    have hr := fetch_eq_ok hk inside hsm hn
    rw [hl] at hp
    simp only [hfo, ha, his, hi, hp, ok_bind]
    rw [hr]
    exact ⟨_, _, rfl, hs.symm, rfl⟩

theorem keeps_of_reachable (hr : shard.Reachable cached) : shard.Keeps cached := by
  induction hr with
  | fresh =>
    intro key tensor bytes hk hh
    cases hh
  | step hr ht hke =>
    cases ht with
    | acquire hs =>
      obtain ⟨tensor, plan, hse, _⟩ := (concludes_acquire hke _ _).of_ok hs
      exact hse.keeps
    | release _ key =>
      intro other tensor bytes hk hh
      dsimp only at hh
      split at hh
      · cases hh
      · exact hke other tensor bytes hk hh

end Shard

/-- Bounded reads return exactly the selected elements: the bytes at the ranges of a plan are the
packed selected elements, every range lies in the payload, the selector of payloads in memory finds
the same bytes, and a lease has these bytes whether it is served from the file or from a complete
tensor that is kept in memory. -/
theorem bounded_reads_exact {key : String} {bits : Nat} {shape output : List Nat}
    {payload : List UInt8} {selection : TensorSelection} {plan : SafetensorsReadPlan}
    (width : 0 < bits) (length : shape.prod * bits = 8 * payload.length)
    (accepted : validateSelection key shape selection = .ok output)
    (planned : planSafetensorsReads key bits shape payload.length selection output .requireBounded =
      .ok plan) : (∃ values : List (List Bool),
      values.map some = selection.select shape (elements bits payload) ∧
        bytesAt payload plan.ranges = packed values) ∧
    (∀ range ∈ plan.ranges, range.start ≤ range.finish ∧ range.finish ≤ payload.length) ∧
    (∃ selected, selectSafetensorsBytes key bits shape payload selection output .requireBounded =
        .ok selected ∧ selected.contents payload = bytesAt payload plan.ranges) ∧
    (∀ (shard : Shard) (cached : FullTensors), shard.Reachable cached →
      ∀ opens request lease kept, shard.acquire opens cached request = .ok (lease, kept) →
        (∃ fresh freshKept, shard.acquire opens (fun _ => none) request = .ok (fresh, freshKept) ∧
          fresh.bytes = lease.bytes) ∧ ∃ tensor read, shard.info request.key = some tensor ∧
          planSafetensorsReads request.key tensor.bits tensor.shape (shard.payload tensor).length
            request.selection lease.outputShape request.policy = .ok read ∧
          lease.bytes = bytesAt (shard.payload tensor) read.ranges) := by
  have hv := ((concludes_validateSelection key shape selection).of_ok accepted).1
  have ha := (concludes_planSafetensorsReads key width length hv).of_ok planned
  refine ⟨ha.holds.packed, ha.inside, ha.same, ?_⟩
  intro shard cached hr opens request lease kept hse
  obtain ⟨tensor, read, hs, fresh, freshKept, hag, hsa, _⟩ :=
    (Shard.concludes_acquire (Shard.keeps_of_reachable hr) opens request).of_ok hse
  exact ⟨⟨fresh, freshKept, hag, hsa⟩, tensor, read, hs.known, hs.planned, hs.bytes⟩

/-- A matrix of half-byte elements behind a header of two bytes. -/
def matrixShard : Shard where
  file := [9, 9, 0, 1, 2, 3, 4, 5]
  payloadOffset := 2
  info key := if key = "w" then some ⟨4, [2, 3, 2], 0, 6⟩ else none
  small := by decide
  admitted key tensor known := by
    split at known
    · cases known
      decide
    · cases known

def keptMatrix : FullTensors := fun other => if other = "w" then some [0, 1, 2, 3, 4, 5] else none

theorem acquire_matrix :
    matrixShard.acquire true (fun _ => none) ⟨"w", .full, .requireBounded⟩ =
      .ok (⟨[2, 3, 2], [0, 1, 2, 3, 4, 5], true, 0, 1, 6⟩, keptMatrix) := rfl

theorem acquire_columns :
    matrixShard.acquire true keptMatrix ⟨"w", .indices 1 [1, 2, 1], .requireBounded⟩ =
      .ok (⟨[2, 3, 2], [1, 2, 1, 4, 5, 4], true, 1, 0, 0⟩, keptMatrix) := rfl

/-- Columns of the matrix, one of them twice: planned, selected in memory, and leased from the file
as they are from the kept matrix. -/
theorem bounded_reads_columns :
    ∃ plan, planSafetensorsReads "w" 4 [2, 3, 2] 6 (.indices 1 [1, 2, 1]) [2, 3, 2] .requireBounded =
        .ok plan ∧ bytesAt [0, 1, 2, 3, 4, 5] plan.ranges = [1, 2, 1, 4, 5, 4] ∧
      (∃ selected, selectSafetensorsBytes "w" 4 [2, 3, 2] [0, 1, 2, 3, 4, 5] (.indices 1 [1, 2, 1])
          [2, 3, 2] .requireBounded = .ok selected ∧
        selected.contents [0, 1, 2, 3, 4, 5] = [1, 2, 1, 4, 5, 4]) ∧
      ∃ fresh kept, matrixShard.acquire true (fun _ => none)
          ⟨"w", .indices 1 [1, 2, 1], .requireBounded⟩ = .ok (fresh, kept) ∧
        fresh.bytes = [1, 2, 1, 4, 5, 4] := by
  have planned : planSafetensorsReads "w" 4 [2, 3, 2] 6 (.indices 1 [1, 2, 1]) [2, 3, 2]
      .requireBounded = .ok ⟨[⟨1, 3⟩, ⟨1, 2⟩, ⟨4, 6⟩, ⟨4, 5⟩], true⟩ := by
    decide +kernel
  have bytes : bytesAt [0, 1, 2, 3, 4, 5] [⟨1, 3⟩, ⟨1, 2⟩, ⟨4, 6⟩, ⟨4, 5⟩] = [1, 2, 1, 4, 5, 4] := by
    decide
  have length : [2, 3, 2].prod * 4 = 8 * ([0, 1, 2, 3, 4, 5] : List UInt8).length := by decide
  obtain ⟨_, _, ⟨selected, found, same⟩, leased⟩ :=
    bounded_reads_exact (by decide) length (by decide +kernel) planned
  have reached : matrixShard.Reachable keptMatrix := .step .fresh (.acquire acquire_matrix)
  obtain ⟨fresh, -⟩ := leased matrixShard keptMatrix reached _ _ _ _ acquire_columns
  exact ⟨_, planned, bytes, ⟨selected, found, same.trans bytes⟩, fresh⟩

end Eredu.Checkpoint
