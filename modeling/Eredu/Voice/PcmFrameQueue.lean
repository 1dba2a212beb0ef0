import Mathlib.Tactic

/-!
# Framing a stream of samples

`PcmFrameQueue` cuts submitted samples into frames of one length. Whole frames are
ready at once. A short last frame is ready after the input is finished, padded with
zeros, and a declared number of silent frames follows it.

`expectedFrame` says what the frame with a given index is, from the samples of the
whole stream and the way it was finished alone. `Carries` connects a queue to the
stream it has taken and to the frames it has given out: its next frame is the
expected one.
-/

namespace Eredu.Voice

open List Nat Except

inductive FinalPcmFrame where
  | partialFrame
  | zeroPad
  | requireComplete
  deriving DecidableEq, Repr

structure PcmFinishPolicy where
  finalFrame : FinalPcmFrame
  trailingSilenceFrames : Nat
  deriving DecidableEq, Repr

inductive PcmFrameSource where
  | input
  | continuation
  deriving DecidableEq, Repr

structure PcmFrame (α : Type) where
  startSample : Nat
  source : PcmFrameSource
  samples : List α
  validSamples : Nat
  deriving DecidableEq, Repr

structure PcmFrameInfo where
  startSample : Nat
  source : PcmFrameSource
  validSamples : Nat
  deriving DecidableEq, Repr

inductive AudioStreamError where
  | invalid (message : String)
  | backpressure (incoming available : Nat)
  | finished
  | finishPolicyMismatch (existing requested : PcmFinishPolicy)
  | timelineOverflow
  | needMoreSamples (required available : Nat)
  deriving DecidableEq, Repr

structure PcmFrameQueue (α : Type) where
  sampleRate : Nat
  frameSamples : Nat
  capacity : Nat
  samples : List α
  consumed : Nat
  outputSamples : Nat
  finish : Option PcmFinishPolicy
  continuationFrames : Nat

variable {policy : PcmFinishPolicy} {sampleRate : Nat}

namespace PcmFrameQueue

variable {α : Type}

def new (sampleRate frameSamples capacity : Nat) : Except AudioStreamError (PcmFrameQueue α) :=
  if sampleRate = 0 ∨ frameSamples = 0 ∨ capacity < frameSamples then
    .error (.invalid ("PCM queue requires a positive rate and frame length, " ++
      "and capacity at least one frame"))
  else
    .ok
      { sampleRate, frameSamples, capacity
        samples := []
        consumed := 0
        outputSamples := 0
        finish := none
        continuationFrames := 0 }

variable (isFinite : α → Bool)

/-- `validate_pcm`: the samples have the rate of the queue and are finite. -/
def validatePcm (samples : List α) (actualRate expectedRate : Nat) : Except AudioStreamError Unit :=
  if actualRate ≠ expectedRate then
    .error (.invalid s!"expected {expectedRate} Hz PCM, got {actualRate} Hz")
  else if samples.any fun sample => !isFinite sample then
    .error (.invalid "PCM samples must be finite")
  else .ok ()

def submit (queue : PcmFrameQueue α) (samples : List α) (sampleRate : Nat) :
    Except AudioStreamError (PcmFrameQueue α) :=
  if queue.finish.isSome then .error .finished
  else do
    validatePcm isFinite samples sampleRate queue.sampleRate
    let available := queue.capacity - queue.samples.length
    if samples.length > available then
      .error (.backpressure samples.length available)
    else if queue.consumed + queue.samples.length + samples.length < 2 ^ 64 then
      .ok { queue with samples := queue.samples ++ samples }
    else .error .timelineOverflow

variable (queue : PcmFrameQueue α)

/-- What a short last frame lacks. -/
def padding (policy : PcmFinishPolicy) : Nat :=
  let remainder := queue.samples.length % queue.frameSamples
  if policy.finalFrame = .zeroPad ∧ remainder ≠ 0 then queue.frameSamples - remainder else 0

/-- Ends the input. The same policy may be declared again. -/
def finishWith (policy : PcmFinishPolicy) : Except AudioStreamError (PcmFrameQueue α) :=
  match queue.finish with
  | some existing =>
    if existing = policy then .ok queue else .error (.finishPolicyMismatch existing policy)
  | none =>
    let remainder := queue.samples.length % queue.frameSamples
    if policy.finalFrame = .requireComplete ∧ remainder ≠ 0 then
      .error (.needMoreSamples queue.frameSamples remainder)
    else if policy.trailingSilenceFrames * queue.frameSamples + queue.samples.length +
        queue.padding policy + queue.outputSamples < 2 ^ 64 then
      .ok { queue with
            finish := some policy
            continuationFrames := policy.trailingSilenceFrames }
    else .error .timelineOverflow

def hasReadyFrame : Bool :=
  (!queue.samples.isEmpty &&
    (decide (queue.frameSamples ≤ queue.samples.length) || queue.finish.isSome)) ||
  decide (queue.continuationFrames ≠ 0)

/-- Whether a frame of this source is given out at full length. -/
def fillsFrame (source : PcmFrameSource) : Bool :=
  source = .continuation || queue.finish.any fun policy => policy.finalFrame = .zeroPad

def nextSource : PcmFrameSource :=
  if queue.samples.isEmpty then .continuation else .input

def nextValidSamples : Nat :=
  min queue.samples.length queue.frameSamples

def peekFrame [Zero α] (queue : PcmFrameQueue α) : Option (PcmFrame α) :=
  if queue.hasReadyFrame then
    let valid := queue.nextValidSamples
    let source := if valid = 0 then PcmFrameSource.continuation else .input
    let samples := queue.samples.take valid
    some
      { startSample := queue.outputSamples
        source
        samples :=
          if queue.fillsFrame source then
            samples ++ replicate (queue.frameSamples - samples.length) 0
          else samples
        validSamples := valid }
  else none

def withoutFrame : PcmFrameQueue α :=
  { queue with
    samples := queue.samples.drop queue.nextValidSamples
    consumed := queue.consumed + queue.nextValidSamples
    outputSamples := queue.outputSamples +
      if queue.fillsFrame queue.nextSource then queue.frameSamples else queue.nextValidSamples
    continuationFrames :=
      if queue.nextSource = .continuation then queue.continuationFrames - 1
      else queue.continuationFrames }

def consumeFrame : Option (PcmFrameInfo × PcmFrameQueue α) :=
  if queue.hasReadyFrame then
    some
      ({ startSample := queue.outputSamples
         source := queue.nextSource
         validSamples := queue.nextValidSamples }, queue.withoutFrame)
  else none

def isDrained : Bool :=
  queue.finish.isSome && queue.samples.isEmpty && decide (queue.continuationFrames = 0)

variable {queue : PcmFrameQueue α}

theorem submit_eq_ok {isFinite : α → Bool} {next : PcmFrameQueue α} {samples : List α}
    (ha : queue.submit isFinite samples sampleRate = .ok next) :
    queue.finish = none ∧ samples.length ≤ queue.capacity - queue.samples.length ∧
      queue.consumed + queue.samples.length + samples.length < 2 ^ 64 ∧
      next = { queue with samples := queue.samples ++ samples } := by
  unfold submit at ha
  by_cases hf : queue.finish.isSome
  · simp [hf] at ha
  rw [if_neg hf] at ha
  cases hv : validatePcm isFinite samples sampleRate queue.sampleRate with
  | error cause => simp [hv, bind, Except.bind] at ha
  | ok _ =>
    simp only [hv, bind, Except.bind] at ha
    by_cases hm : samples.length > queue.capacity - queue.samples.length
    · simp [hm] at ha
    by_cases hc : queue.consumed + queue.samples.length + samples.length < 2 ^ 64
    · rw [if_neg hm, if_pos hc] at ha
      exact ⟨by simpa using hf, by omega, hc, (Except.ok.inj ha).symm⟩
    · rw [if_neg hm, if_neg hc] at ha
      cases ha

theorem finishWith_eq_ok {next : PcmFrameQueue α} (ha : queue.finishWith policy = .ok next) :
    (queue.finish = some policy ∧ next = queue) ∨
    (queue.finish = none ∧
      ¬ (policy.finalFrame = .requireComplete ∧ queue.samples.length % queue.frameSamples ≠ 0) ∧
      policy.trailingSilenceFrames * queue.frameSamples + queue.samples.length +
        queue.padding policy + queue.outputSamples < 2 ^ 64 ∧
      next = { queue with
               finish := some policy
               continuationFrames := policy.trailingSilenceFrames }) := by
  unfold finishWith at ha
  cases hf : queue.finish with
  | some existing =>
    simp only [hf] at ha
    by_cases hsa : existing = policy
    · rw [if_pos hsa] at ha
      exact .inl ⟨congrArg some hsa, (ok.inj ha).symm⟩
    · rw [if_neg hsa] at ha
      cases ha
  | none =>
    simp only [hf] at ha
    by_cases hs : policy.finalFrame = .requireComplete ∧
        queue.samples.length % queue.frameSamples ≠ 0
    · rw [if_pos hs] at ha
      cases ha
    rw [if_neg hs] at ha
    refine .inr ⟨rfl, hs, ?_⟩
    by_cases hc : policy.trailingSilenceFrames * queue.frameSamples + queue.samples.length +
        queue.padding policy + queue.outputSamples < 2 ^ 64
    · rw [if_pos hc] at ha
      exact ⟨hc, (ok.inj ha).symm⟩
    · rw [if_neg hc] at ha
      cases ha

theorem isDrained_of_peekFrame_eq_none [Zero α] (hf : queue.finish.isSome)
    (hn : queue.peekFrame = none) : queue.isDrained = true := by
  have hu : queue.hasReadyFrame = false := by
    by_contra hr
    simp [peekFrame, hr] at hn
  simp only [hasReadyFrame, hf, Bool.or_true, Bool.and_true, Bool.or_eq_false_iff,
    Bool.not_eq_false', decide_eq_false_iff_not, not_not] at hu
  simp [isDrained, hf, hu]

end PcmFrameQueue

section Stream

variable {α : Type} [Zero α] (frameSamples : Nat) (stream : List α)

/-- How many frames the samples of a finished stream fill, the last one perhaps in part. -/
def inputFrames : Nat :=
  (stream.length + frameSamples - 1) / frameSamples

def cutFrame (index : Nat) : PcmFrame α :=
  let rest := stream.drop (index * frameSamples)
  { startSample := index * frameSamples
    source := .input
    samples := rest.take frameSamples ++ replicate (frameSamples - rest.length) 0
    validSamples := min rest.length frameSamples }

def silentFrame (α : Type) [Zero α] (frameSamples index : Nat) : PcmFrame α :=
  { startSample := index * frameSamples
    source := .continuation
    samples := replicate frameSamples 0
    validSamples := 0 }

def expectedFrame (finish : Option PcmFinishPolicy) (index : Nat) : Option (PcmFrame α) :=
  let rest := stream.drop (index * frameSamples)
  if frameSamples ≤ rest.length ∨ (rest ≠ [] ∧ finish.isSome) then
    some (cutFrame frameSamples stream index)
  else
    match finish with
    | none => none
    | some policy =>
      if index < inputFrames frameSamples stream + policy.trailingSilenceFrames then
        some (silentFrame α frameSamples index)
      else none

omit [Zero α] in
theorem inputFrames_le_iff {frameSamples : Nat} (positive : 0 < frameSamples) (stream : List α)
    (count : Nat) :
    inputFrames frameSamples stream ≤ count ↔ stream.length ≤ count * frameSamples := by
  rw [inputFrames, div_le_iff_le_mul_add_pred positive, mul_comm count]
  omega

omit [Zero α] in
/-- The frames of a finished stream hold its samples and the padding of the last one. -/
theorem inputFrames_mul {frameSamples : Nat} (positive : 0 < frameSamples) (stream : List α) :
    inputFrames frameSamples stream * frameSamples = stream.length +
      if stream.length % frameSamples = 0 then 0
      else frameSamples - stream.length % frameSamples := by
  have divided : stream.length / frameSamples * frameSamples + stream.length % frameSamples =
      stream.length := div_add_mod' _ _
  have below := mod_lt stream.length positive
  have bound := inputFrames_le_iff positive stream
  by_cases whole : stream.length % frameSamples = 0
  · have count : inputFrames frameSamples stream = stream.length / frameSamples := by
      apply le_antisymm
      · exact (bound _).mpr (by omega)
      · exact Nat.div_le_of_le_mul (by rw [mul_comm]; exact (bound _).mp le_rfl)
    rw [count, if_pos whole]
    omega
  · have count : inputFrames frameSamples stream = stream.length / frameSamples + 1 := by
      apply le_antisymm
      · exact (bound _).mpr (by rw [succ_mul]; omega)
      · by_contra fewer
        have := (bound (stream.length / frameSamples)).mp (by omega)
        omega
    rw [count, if_neg whole, succ_mul]
    omega

variable {stream : List α} {index frameSamples : Nat}

theorem expectedFrame_full (hf : (index + 1) * frameSamples ≤ stream.length)
    (finish : Option PcmFinishPolicy) : expectedFrame frameSamples stream finish index =
      some (cutFrame frameSamples stream index) := by
  have he : frameSamples ≤ (stream.drop (index * frameSamples)).length := by
    rw [length_drop]
    rw [succ_mul] at hf
    omega
  simp only [expectedFrame, he, true_or, if_true]

theorem cutFrame_append (hf : (index + 1) * frameSamples ≤ stream.length) (more : List α) :
    cutFrame frameSamples (stream ++ more) index = cutFrame frameSamples stream index := by
  rw [Nat.succ_mul] at hf
  have hi : index * frameSamples ≤ stream.length := by omega
  have he : frameSamples ≤ (stream.drop (index * frameSamples)).length := by
    rw [length_drop]
    omega
  have hs : frameSamples ≤ (stream.drop (index * frameSamples) ++ more).length := by
    rw [length_append]
    omega
  simp only [cutFrame, drop_append_of_le_length hi, take_append_of_le_length he,
    Nat.sub_eq_zero_of_le he, Nat.sub_eq_zero_of_le hs, Nat.min_eq_right he,
    Nat.min_eq_right hs]

theorem expectedFrame_unfinished (hp : 0 < frameSamples)
    (hs : stream.length < (index + 1) * frameSamples) :
    expectedFrame frameSamples stream none index = none := by
  have hm : stream.length - index * frameSamples < frameSamples := by
    rw [succ_mul] at hs
    omega
  simp [expectedFrame, hm]

/-- A frame that is ready stays what it is when more samples come or the input is finished. -/
theorem expectedFrame_stable {frame : PcmFrame α} (hp : 0 < frameSamples)
    (hr : expectedFrame frameSamples stream none index = some frame) (more : List α)
    (finish : Option PcmFinishPolicy) :
    expectedFrame frameSamples (stream ++ more) finish index = some frame := by
  by_cases hf : (index + 1) * frameSamples ≤ stream.length
  · have hs : (index + 1) * frameSamples ≤ (stream ++ more).length := by
      rw [length_append]
      omega
    rw [expectedFrame_full hf] at hr
    rw [expectedFrame_full hs, cutFrame_append hf, hr]
  · rw [expectedFrame_unfinished hp (by omega)] at hr
    cases hr

variable {finish : Option PcmFinishPolicy} {frame : PcmFrame α} (hp : 0 < frameSamples)
  (hr : expectedFrame frameSamples stream finish index = some frame)

include hp hr

theorem expectedFrame_cases : (stream.drop (index * frameSamples) ≠ [] ∧
      (frameSamples ≤ (stream.drop (index * frameSamples)).length ∨ finish.isSome) ∧
      frame = cutFrame frameSamples stream index) ∨ (stream.drop (index * frameSamples) = [] ∧
      (∃ policy, finish = some policy ∧
        index < inputFrames frameSamples stream + policy.trailingSilenceFrames) ∧
      frame = silentFrame α frameSamples index) := by
  unfold expectedFrame at hr
  by_cases hg : frameSamples ≤ (stream.drop (index * frameSamples)).length ∨
      (stream.drop (index * frameSamples) ≠ [] ∧ finish.isSome)
  · simp only [hg] at hr
    refine .inl ⟨?_, hg.imp_right And.right, (Option.some.inj hr).symm⟩
    rcases hg with hf | ⟨hn, _⟩
    · exact length_pos_iff.mp (by omega)
    · exact hn
  · simp only [hg] at hr
    cases finish with
    | none => cases hr
    | some policy =>
      have he : stream.drop (index * frameSamples) = [] := by
        by_contra hn
        exact hg (.inr ⟨hn, rfl⟩)
      by_cases hs : index < inputFrames frameSamples stream + policy.trailingSilenceFrames
      · simp only [hs] at hr
        exact .inr ⟨he, ⟨policy, rfl, hs⟩, (Option.some.inj hr).symm⟩
      · simp [hs] at hr

/-- Two ways to end a stream give the same frames, as far as they give any. -/
theorem expectedFrame_unique {other : Option PcmFinishPolicy} {otherFrame : PcmFrame α}
    (hot : expectedFrame frameSamples stream other index = some otherFrame) :
    frame = otherFrame := by
  obtain ⟨hm, _, hs⟩ | ⟨he, _, hs⟩ := expectedFrame_cases hp hr <;>
  obtain ⟨hoe, _, ho⟩ | ⟨hoy, _, ho⟩ := expectedFrame_cases hp hot
  · rw [hs, ho]
  · exact absurd hoy hm
  · exact absurd he hoe
  · rw [hs, ho]

theorem expectedFrame_startSample : frame.startSample = index * frameSamples := by
  obtain ⟨_, _, hs⟩ | ⟨_, _, hs⟩ := expectedFrame_cases hp hr
  · rw [hs, cutFrame]
  · rw [hs, silentFrame]

def PcmFrame.valid (frame : PcmFrame α) : List α := frame.samples.take frame.validSamples

theorem expectedFrame_valid :
    frame.valid = (stream.drop (index * frameSamples)).take frameSamples := by
  obtain ⟨_, _, hs⟩ | ⟨he, _, hs⟩ := expectedFrame_cases hp hr
  · have hl : ((stream.drop (index * frameSamples)).take frameSamples).length =
        min (stream.drop (index * frameSamples)).length frameSamples := by
      rw [length_take, min_comm]
    rw [hs, PcmFrame.valid, cutFrame]
    simp only [← hl, take_left]
  · rw [hs, he, PcmFrame.valid, silentFrame, take_zero, take_nil]

end Stream

section Carrying

variable {α : Type} [Zero α]

/-- The queue holds what is left of a stream after this many frames. -/
structure Carries (queue : PcmFrameQueue α) (stream : List α) (frames : Nat) : Prop where
  positive : 0 < queue.frameSamples
  samples : queue.samples = stream.drop (frames * queue.frameSamples)
  output : queue.outputSamples = frames * queue.frameSamples
  consumed : queue.consumed = min (frames * queue.frameSamples) stream.length
  bounded : queue.samples.length ≤ queue.capacity
  clock : stream.length < 2 ^ 64
  unfinished : queue.finish = none →
    queue.continuationFrames = 0 ∧ frames * queue.frameSamples ≤ stream.length
  finished : ∀ policy, queue.finish = some policy →
    policy.finalFrame ≠ .partialFrame ∧
    (policy.finalFrame = .requireComplete → stream.length % queue.frameSamples = 0) ∧
    queue.continuationFrames = policy.trailingSilenceFrames -
      (frames - inputFrames queue.frameSamples stream) ∧
    frames ≤ inputFrames queue.frameSamples stream + policy.trailingSilenceFrames ∧
    (inputFrames queue.frameSamples stream + policy.trailingSilenceFrames) * queue.frameSamples <
      2 ^ 64

namespace Carries

variable {queue : PcmFrameQueue α} {stream : List α} {frames : Nat}
  (carries : Carries queue stream frames)

include carries

omit [Zero α] in
theorem length_samples : queue.samples.length = stream.length - frames * queue.frameSamples := by
  rw [carries.samples, length_drop]

omit [Zero α] in
theorem isEmpty_iff : queue.samples = [] ↔ inputFrames queue.frameSamples stream ≤ frames := by
  rw [inputFrames_le_iff carries.positive, ← length_eq_zero_iff, carries.length_samples]
  omega

omit [Zero α] in
theorem full_of_not_filled (nonempty : queue.samples ≠ [])
    (ready : queue.frameSamples ≤ queue.samples.length ∨ queue.finish.isSome)
    (bare : queue.fillsFrame .input = false) : queue.frameSamples ≤ queue.samples.length := by
  rcases ready with full | finished
  · exact full
  · obtain ⟨policy, same⟩ := Option.isSome_iff_exists.mp finished
    obtain ⟨whole, complete, _⟩ := carries.finished policy same
    have declared : policy.finalFrame = .requireComplete := by
      cases form : policy.finalFrame with
      | partialFrame => exact absurd form whole
      | zeroPad => simp [PcmFrameQueue.fillsFrame, same, form] at bare
      | requireComplete => rfl
    have divides : queue.frameSamples ∣ queue.samples.length := by
      rw [carries.length_samples]
      exact dvd_sub (dvd_of_mod_eq_zero (complete declared)) (dvd_mul_left _ _)
    exact le_of_dvd (length_pos_iff.mpr nonempty) divides

theorem peekFrame_eq :
    queue.peekFrame = expectedFrame queue.frameSamples stream queue.finish frames := by
  have hp := carries.positive.ne'
  simp only [expectedFrame, cutFrame, silentFrame, ← carries.samples]
  by_cases he : queue.samples = []
  · have hb := carries.isEmpty_iff.mp he
    cases hf : queue.finish with
    | none =>
      have hi := (carries.unfinished hf).1
      simp [PcmFrameQueue.peekFrame, PcmFrameQueue.hasReadyFrame, he, hi, hp]
    | some policy =>
      obtain ⟨_, _, hre, _⟩ := carries.finished policy hf
      by_cases hs : frames < inputFrames queue.frameSamples stream + policy.trailingSilenceFrames
      · have hm : queue.continuationFrames ≠ 0 := by omega
        simp [PcmFrameQueue.peekFrame, PcmFrameQueue.hasReadyFrame,
          PcmFrameQueue.nextValidSamples, PcmFrameQueue.fillsFrame, he, hm, hs, hp,
          carries.output]
      · have hn : queue.continuationFrames = 0 := by omega
        simp [PcmFrameQueue.peekFrame, PcmFrameQueue.hasReadyFrame, he, hn, hs, hp]
  · have hv : queue.nextValidSamples ≠ 0 := by
      simp [PcmFrameQueue.nextValidSamples, he, hp]
    by_cases hr : queue.frameSamples ≤ queue.samples.length ∨ queue.finish.isSome
    · have hw : queue.frameSamples ≤ queue.samples.length ∨
          queue.samples ≠ [] ∧ queue.finish.isSome := hr.imp_right fun hg => ⟨he, hg⟩
      have has : queue.hasReadyFrame = true := by
        simp [PcmFrameQueue.hasReadyFrame, he, hr]
      have ht : queue.samples.take queue.nextValidSamples =
          queue.samples.take queue.frameSamples := by
        rw [PcmFrameQueue.nextValidSamples, Nat.min_comm, ← take_eq_take_min]
      simp only [PcmFrameQueue.peekFrame, has, if_true, hv, if_false, hw, ht, carries.output]
      cases hfi : queue.fillsFrame .input with
      | true =>
        have hpa : queue.frameSamples - min queue.frameSamples queue.samples.length =
            queue.frameSamples - queue.samples.length := by omega
        simp [PcmFrameQueue.nextValidSamples, hpa]
      | false =>
        have hen := carries.full_of_not_filled he hr hfi
        simp [PcmFrameQueue.nextValidSamples, Nat.sub_eq_zero_of_le hen]
    · have hu : queue.finish = none := by simpa using fun hg => hr (.inr hg)
      have hi := (carries.unfinished hu).1
      have hsh : ¬ queue.frameSamples ≤ queue.samples.length := fun hfu => hr (.inl hfu)
      simp [PcmFrameQueue.peekFrame, PcmFrameQueue.hasReadyFrame, hu, hi, hsh]

omit [Zero α] in
theorem ready_cases (ready : queue.hasReadyFrame = true) :
    (queue.samples ≠ [] ∧ (queue.frameSamples ≤ queue.samples.length ∨ queue.finish.isSome)) ∨
    (queue.samples = [] ∧ queue.continuationFrames ≠ 0 ∧ queue.finish.isSome) := by
  by_cases empty : queue.samples = []
  · have more : queue.continuationFrames ≠ 0 := by
      simpa [PcmFrameQueue.hasReadyFrame, empty] using ready
    refine .inr ⟨empty, more, ?_⟩
    by_contra unfinished
    exact more (carries.unfinished (by simpa using unfinished)).1
  · refine .inl ⟨empty, ?_⟩
    by_contra unready
    have unfinished : queue.finish = none := by simpa using fun given => unready (.inr given)
    have idle := (carries.unfinished unfinished).1
    have short : ¬ queue.frameSamples ≤ queue.samples.length := fun full => unready (.inl full)
    simp [PcmFrameQueue.hasReadyFrame, unfinished, idle, short] at ready

omit [Zero α] in
theorem frame_length (ready : queue.hasReadyFrame = true) :
    (if queue.fillsFrame queue.nextSource then queue.frameSamples else queue.nextValidSamples) =
      queue.frameSamples := by
  rcases carries.ready_cases ready with ⟨nonempty, given⟩ | ⟨empty, _, _⟩
  · have source : queue.nextSource = .input := by simp [PcmFrameQueue.nextSource, nonempty]
    rw [source]
    cases filled : queue.fillsFrame .input with
    | true => rfl
    | false =>
      have enough := carries.full_of_not_filled nonempty given filled
      simp [PcmFrameQueue.nextValidSamples, enough]
  · simp [PcmFrameQueue.nextSource, PcmFrameQueue.fillsFrame, empty]

omit [Zero α] in
theorem withoutFrame (ready : queue.hasReadyFrame = true) :
    Carries queue.withoutFrame stream (frames + 1) := by
  have length := carries.length_samples
  have advance : (frames + 1) * queue.frameSamples =
      frames * queue.frameSamples + queue.frameSamples := succ_mul _ _
  have behind := carries.isEmpty_iff
  have cases := carries.ready_cases ready
  refine ⟨carries.positive, ?_, ?_, ?_, ?_, carries.clock, ?_, ?_⟩
  · show queue.samples.drop queue.nextValidSamples = stream.drop ((frames + 1) * queue.frameSamples)
    rw [advance, ← drop_drop, ← carries.samples, PcmFrameQueue.nextValidSamples]
    by_cases full : queue.frameSamples ≤ queue.samples.length
    · rw [min_eq_right full]
    · rw [min_eq_left (by omega), drop_length, drop_eq_nil_of_le (by omega)]
  · show queue.outputSamples + _ = (frames + 1) * queue.frameSamples
    rw [carries.frame_length ready, carries.output, advance]
  · show queue.consumed + queue.nextValidSamples = min ((frames + 1) * queue.frameSamples) _
    rw [advance, carries.consumed, PcmFrameQueue.nextValidSamples]
    omega
  · show (queue.samples.drop _).length ≤ queue.capacity
    have := carries.bounded
    rw [length_drop]
    omega
  · intro unfinished
    have unfinished : queue.finish = none := unfinished
    obtain ⟨nonempty, full | finished⟩ | ⟨_, more, _⟩ := cases
    · refine ⟨?_, ?_⟩
      · simp [PcmFrameQueue.withoutFrame, PcmFrameQueue.nextSource,
          (carries.unfinished unfinished).1]
      · show (frames + 1) * queue.frameSamples ≤ stream.length
        have := (carries.unfinished unfinished).2
        omega
    · simp [unfinished] at finished
    · exact absurd (carries.unfinished unfinished).1 more
  · intro policy finished
    obtain ⟨form, complete, remaining, within, clock⟩ := carries.finished policy finished
    refine ⟨form, complete, ?_, ?_, clock⟩
    · show (if queue.nextSource = .continuation then _ else _) = _
      obtain ⟨nonempty, _⟩ | ⟨empty, more, _⟩ := cases
      · have before : ¬ inputFrames queue.frameSamples stream ≤ frames := fun le => nonempty (behind.mpr le)
        simp only [PcmFrameQueue.nextSource, nonempty, List.isEmpty_iff]
        show queue.continuationFrames = _ - (frames + 1 - inputFrames queue.frameSamples stream)
        omega
      · have after := behind.mp empty
        simp only [PcmFrameQueue.nextSource, empty, List.isEmpty_nil, if_true]
        show queue.continuationFrames - 1 = _ - (frames + 1 - inputFrames queue.frameSamples stream)
        omega
    · show frames + 1 ≤ inputFrames queue.frameSamples stream + policy.trailingSilenceFrames
      obtain ⟨nonempty, _⟩ | ⟨empty, more, _⟩ := cases
      · have before : ¬ inputFrames queue.frameSamples stream ≤ frames := fun le => nonempty (behind.mpr le)
        omega
      · omega

omit [Zero α] in
theorem frames_le_inputFrames
    (unfinished : queue.finish = none) : frames ≤ inputFrames queue.frameSamples stream := by
  have within := (carries.unfinished unfinished).2
  have covers := (inputFrames_le_iff carries.positive stream _).mp le_rfl
  exact le_of_mul_le_mul_right (within.trans covers) carries.positive

omit [Zero α] in
theorem submit {isFinite : α → Bool} {samples : List α}
    {next : PcmFrameQueue α} (accepted : queue.submit isFinite samples sampleRate = .ok next) :
    Carries next (stream ++ samples) frames := by
  obtain ⟨unfinished, fits, clock, rfl⟩ := PcmFrameQueue.submit_eq_ok accepted
  obtain ⟨idle, within⟩ := carries.unfinished unfinished
  have length := carries.length_samples
  have consumed := carries.consumed
  have bounded := carries.bounded
  refine ⟨carries.positive, ?_, carries.output, ?_, ?_, ?_, fun _ => ⟨idle, ?_⟩, ?_⟩
  · simp only [drop_append_of_le_length within, carries.samples]
  · simp only [length_append]
    omega
  · simp only [length_append]
    omega
  · simp only [length_append]
    omega
  · simp only [length_append]
    omega
  · intro policy finish
    simp [unfinished] at finish

omit [Zero α] in
/-- The clock that `finishWith` checks is the one at the end of the last frame. -/
theorem finished_clock (unfinished : queue.finish = none)
    (form : policy.finalFrame ≠ .partialFrame) (complete : ¬ (policy.finalFrame = .requireComplete ∧
      queue.samples.length % queue.frameSamples ≠ 0)) :
    (inputFrames queue.frameSamples stream + policy.trailingSilenceFrames) * queue.frameSamples =
      policy.trailingSilenceFrames * queue.frameSamples + queue.samples.length +
        queue.padding policy + queue.outputSamples := by
  have within := (carries.unfinished unfinished).2
  have total : stream.length = queue.samples.length + frames * queue.frameSamples := by
    have := carries.length_samples
    omega
  have remainder : stream.length % queue.frameSamples =
      queue.samples.length % queue.frameSamples := by
    rw [total, add_mul_mod_self_right]
  rw [add_mul, inputFrames_mul carries.positive, remainder, carries.output,
    PcmFrameQueue.padding]
  by_cases whole : queue.samples.length % queue.frameSamples = 0
  · simp only [whole, if_true, ne_eq, not_true, and_false, if_false]
    omega
  · have padded : policy.finalFrame = .zeroPad := by
      cases declared : policy.finalFrame with
      | partialFrame => exact absurd declared form
      | zeroPad => rfl
      | requireComplete => exact absurd ⟨declared, whole⟩ complete
    simp only [whole, padded, if_false, ne_eq, not_false_eq_true, and_true, if_true]
    omega

omit [Zero α] in
theorem finishWith {next : PcmFrameQueue α}
    (form : policy.finalFrame ≠ .partialFrame) (accepted : queue.finishWith policy = .ok next) :
    Carries next stream frames := by
  obtain ⟨_, rfl⟩ | ⟨unfinished, complete, clock, rfl⟩ := PcmFrameQueue.finishWith_eq_ok accepted
  · exact carries
  have enough := carries.frames_le_inputFrames unfinished
  have within := (carries.unfinished unfinished).2
  have length := carries.length_samples
  rw [← carries.finished_clock unfinished form complete] at clock
  refine ⟨carries.positive, carries.samples, carries.output, carries.consumed, carries.bounded,
    carries.clock, nofun, fun declared same => ?_⟩
  obtain rfl := Option.some.inj same
  refine ⟨form, fun needed => ?_, ?_, enough.trans (le_add_right _ _), clock⟩
  · by_contra short
    have total : stream.length = queue.samples.length + frames * queue.frameSamples := by omega
    exact complete ⟨needed, by rwa [total, add_mul_mod_self_right] at short⟩
  · simp only
    omega

theorem consumeFrame_eq {frame : PcmFrame α} (hs : queue.peekFrame = some frame) :
    queue.hasReadyFrame = true ∧ queue.nextSource = frame.source ∧
      queue.nextValidSamples = frame.validSamples ∧
      queue.consumeFrame =
        some
          ({ startSample := frame.startSample
             source := frame.source
             validSamples := frame.validSamples }, queue.withoutFrame) := by
  unfold PcmFrameQueue.peekFrame at hs
  by_cases hr : queue.hasReadyFrame
  · rw [if_pos hr] at hs
    obtain rfl := Option.some.inj hs
    have hp := carries.positive.ne'
    have hso : queue.nextSource =
        if queue.nextValidSamples = 0 then PcmFrameSource.continuation else .input := by
      simp [PcmFrameQueue.nextSource, PcmFrameQueue.nextValidSamples, hp]
    refine ⟨hr, hso, rfl, ?_⟩
    simp only [PcmFrameQueue.consumeFrame, hr, if_true, hso]
  · rw [if_neg hr] at hs
    cases hs

omit [Zero α] in
theorem isDrained_iff : queue.isDrained = true ↔ ∃ policy, queue.finish = some policy ∧
      frames = inputFrames queue.frameSamples stream + policy.trailingSilenceFrames := by
  have behind := carries.isEmpty_iff
  cases finish : queue.finish with
  | none => simp [PcmFrameQueue.isDrained, finish]
  | some policy =>
    obtain ⟨_, _, remaining, within, _⟩ := carries.finished policy finish
    simp only [PcmFrameQueue.isDrained, finish, Option.isSome_some, Bool.true_and,
      Bool.and_eq_true, List.isEmpty_iff, decide_eq_true_eq, behind, Option.some.injEq,
      exists_eq_left']
    omega

omit [Zero α] in
theorem frames_mul_lt : frames * queue.frameSamples < 2 ^ 64 := by
  cases finish : queue.finish with
  | none => exact (carries.unfinished finish).2.trans_lt carries.clock
  | some policy =>
    obtain ⟨_, _, _, within, clock⟩ := carries.finished policy finish
    exact (mul_le_mul_right _ within).trans_lt clock

end Carries

end Carrying

end Eredu.Voice
