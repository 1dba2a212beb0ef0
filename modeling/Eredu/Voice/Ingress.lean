import Eredu.Voice.PcmFrameQueue

/-!
# Input permits over the frame queue

The ingress takes samples from an external sender and hands out at most one permit
for the head of the queue. The frame of a permit leaves the queue when the permit is
committed. A permit that is dropped leaves the queue as it was.

`Host` adds to the ingress what an observer sees of a run: the samples that were
accepted, the frames that were committed, and how often a commit marked the finish.
-/

namespace Eredu.Voice

open PcmFrameQueue Except

def INPUT_SAMPLE_RATE : Nat := 16000

def INPUT_FRAME_SAMPLES : Nat := 1280

inductive PcmPrecision where
  | f32
  | f16
  | bf16
  deriving DecidableEq, Repr

/-- What the code asks of a sample: whether it is finite, and its value in a precision. -/
structure SampleFormat (α : Type) where
  isFinite : α → Bool
  roundPcm : PcmPrecision → α → α

structure VoiceChatInputConfig where
  capacitySamples : Nat
  pcmPrecision : PcmPrecision
  deriving DecidableEq, Repr

inductive VoiceChatInputError where
  | closed
  | unavailable
  | busy
  | needsInput
  | drained
  | required
  | drainPending
  | attribution
  | configuration (message : String)
  | audio (error : AudioStreamError)
  | frontend (error : AudioStreamError)
  deriving DecidableEq, Repr

structure VoiceChatInputStatus where
  acceptedSamples : Nat
  committedSamples : Nat
  committedFrames : Nat
  committedContinuationFrames : Nat
  remainingContinuationFrames : Nat
  queuedSamples : Nat
  reservedSamples : Nat
  pending : Bool
  finished : Bool
  finishDeclared : Bool
  finishCommitted : Bool
  closed : Bool
  deriving DecidableEq, Repr

structure Ingress (α : Type) where
  config : VoiceChatInputConfig
  queue : PcmFrameQueue α
  accepted : Nat
  committed : Nat
  frames : Nat
  continuationFrames : Nat
  finishDeclared : Bool
  pending : Bool
  reserved : Nat
  finishCommitted : Bool
  closed : Bool

structure VoiceChatInputPermit (α : Type) where
  frame : Option (PcmFrame α)
  frameIndex : Nat
  declaration : Option PcmFinishPolicy
  finish : Bool

variable {α : Type}

/-- `validate_input_pcm`: the rate of the frontend, and finite in its precision. -/
def validateInputPcm (format : SampleFormat α) (samples : List α) (sampleRate : Nat)
    (precision : PcmPrecision) : Except AudioStreamError Unit :=
  if sampleRate ≠ INPUT_SAMPLE_RATE ∨ samples.any fun sample =>
      !format.isFinite sample || !format.isFinite (format.roundPcm precision sample) then
    .error (.invalid "VoiceChat requires 16 kHz PCM finite in the selected precision")
  else .ok ()

variable (ingress : Ingress α)

namespace Ingress

def new (config : VoiceChatInputConfig) : Except VoiceChatInputError (Ingress α) :=
  match PcmFrameQueue.new INPUT_SAMPLE_RATE INPUT_FRAME_SAMPLES config.capacitySamples with
  | .error cause => .error (.audio cause)
  | .ok queue =>
    .ok
      { config, queue
        accepted := 0
        committed := 0
        frames := 0
        continuationFrames := 0
        finishDeclared := false
        pending := false
        reserved := 0
        finishCommitted := false
        closed := false }

def submit (format : SampleFormat α) (ingress : Ingress α) (samples : List α) (sampleRate : Nat) :
    Except VoiceChatInputError (Ingress α) :=
  if ingress.closed then .error .closed
  else
    match validateInputPcm format samples sampleRate ingress.config.pcmPrecision with
    | .error cause => .error (.frontend cause)
    | .ok _ =>
      if ingress.accepted + samples.length < 2 ^ 64 then
        match ingress.queue.submit format.isFinite samples sampleRate with
        | .error cause => .error (.audio cause)
        | .ok queue => .ok { ingress with queue, accepted := ingress.accepted + samples.length }
      else .error (.configuration "sample clock overflow")

def finish (policy : PcmFinishPolicy) : Except VoiceChatInputError (Ingress α) :=
  if ingress.closed then .error .closed
  else if policy.finalFrame = .partialFrame then
    .error (.configuration "partial VoiceChat frames require zero padding")
  else
    match ingress.queue.finishWith policy with
    | .error cause => .error (.audio cause)
    | .ok queue => .ok { ingress with queue }

def declaration : Option PcmFinishPolicy :=
  if !ingress.finishDeclared && decide (ingress.queue.samples.length ≤ INPUT_FRAME_SAMPLES) then
    ingress.queue.finish
  else none

def endsWith (frame : Option (PcmFrame α)) : Bool :=
  ingress.queue.finish.isSome &&
    if frame.any fun frame => frame.source = .continuation then
      decide (ingress.queue.continuationFrames = 1)
    else
      decide (ingress.queue.samples.length ≤ INPUT_FRAME_SAMPLES) &&
        decide (ingress.queue.continuationFrames = 0)

def reserve [Zero α] (ingress : Ingress α) :
    Except VoiceChatInputError (Ingress α × VoiceChatInputPermit α) :=
  if ingress.closed then .error .closed
  else if ingress.pending then .error .busy
  else if ingress.finishCommitted then .error .drained
  else
    let frame := ingress.queue.peekFrame
    if frame.isNone && !ingress.queue.isDrained then .error .needsInput
    else if frame.isSome && decide (2 ^ 64 ≤ ingress.frames + 1) then
      .error (.configuration "frame clock overflow")
    else
      .ok
        ({ ingress with reserved := frame.elim 0 PcmFrame.validSamples, pending := true },
          { frame
            frameIndex := ingress.frames
            declaration := ingress.declaration
            finish := ingress.endsWith frame })

def validateDrain : Except VoiceChatInputError Unit :=
  if ingress.closed then .error .closed
  else if ingress.pending || !ingress.finishCommitted || !ingress.queue.isDrained then
    .error .drainPending
  else .ok ()

def close : Ingress α := { ingress with closed := true }

def status : VoiceChatInputStatus :=
  { acceptedSamples := ingress.accepted
    committedSamples := ingress.committed
    committedFrames := ingress.frames
    committedContinuationFrames := ingress.continuationFrames
    remainingContinuationFrames := ingress.queue.continuationFrames
    queuedSamples := ingress.queue.samples.length
    reservedSamples := ingress.reserved
    pending := ingress.pending
    finished := ingress.queue.finish.isSome
    finishDeclared := ingress.finishDeclared
    finishCommitted := ingress.finishCommitted
    closed := ingress.closed }

/-- The head of the queue leaves it. Without a head the code stops on an `expect`. -/
def consumeHead : Option (Ingress α) :=
  match ingress.queue.consumeFrame with
  | none => none
  | some (info, queue) =>
    some
      { ingress with
        queue
        committed := ingress.committed + info.validSamples
        frames := ingress.frames + 1
        continuationFrames := ingress.continuationFrames +
          if info.source = .continuation then 1 else 0 }

end Ingress

namespace VoiceChatInputPermit

def commit (permit : VoiceChatInputPermit α) (ingress : Ingress α) : Option (Ingress α) :=
  (if permit.frame.isSome then ingress.consumeHead else some ingress).map fun ingress =>
    { ingress with
      finishDeclared := ingress.finishDeclared || permit.declaration.isSome
      finishCommitted := ingress.finishCommitted || permit.finish
      pending := false
      reserved := 0 }

def drop : Ingress α :=
  { ingress with pending := false, reserved := 0 }

end VoiceChatInputPermit

/-- An ingress with the permit that is out, and what a run has done so far. -/
structure Host (α : Type) where
  ingress : Ingress α
  permit : Option (VoiceChatInputPermit α)
  stream : List α
  delivered : List (PcmFrame α)
  finishes : Nat

inductive Command (α : Type) where
  | submit (samples : List α) (sampleRate : Nat)
  | finish (policy : PcmFinishPolicy)
  | reserve
  | abandon
  | commit
  | close

namespace Host

def start : Host α :=
  { ingress
    permit := none
    stream := []
    delivered := []
    finishes := 0 }

/-- One request. A refused one leaves everything as it was, and `none` is a stop on an `expect`. -/
def step [Zero α] (format : SampleFormat α) (host : Host α) : Command α → Option (Host α)
  | .submit samples sampleRate =>
    match host.ingress.submit format samples sampleRate with
    | .error _ => some host
    | .ok ingress => some { host with ingress, stream := host.stream ++ samples }
  | .finish policy =>
    match host.ingress.finish policy with
    | .error _ => some host
    | .ok ingress => some { host with ingress }
  | .reserve =>
    match host.ingress.reserve with
    | .error _ => some host
    | .ok (ingress, permit) => some { host with ingress, permit := some permit }
  | .abandon =>
    match host.permit with
    | none => some host
    | some _ => some { host with ingress := VoiceChatInputPermit.drop host.ingress, permit := none }
  | .commit =>
    match host.permit with
    | none => some host
    | some permit =>
      (permit.commit host.ingress).map fun ingress =>
        { host with
          ingress
          permit := none
          delivered := host.delivered ++ permit.frame.toList
          finishes := host.finishes + if permit.finish then 1 else 0 }
  | .close => some { host with ingress := host.ingress.close }

def run [Zero α] (format : SampleFormat α) (host : Host α) (commands : List (Command α)) :
    Option (Host α) :=
  commands.foldlM (step format) host

end Host

variable {permit : VoiceChatInputPermit α} {next ingress : Ingress α} {policy : PcmFinishPolicy}
  {samples : List α} {sampleRate : Nat}

namespace Ingress

theorem submit_eq_ok {format : SampleFormat α}
    (ha : ingress.submit format samples sampleRate = .ok next) :
    ∃ queue, ingress.queue.submit format.isFinite samples sampleRate = .ok queue ∧
      next = { ingress with queue, accepted := ingress.accepted + samples.length } := by
  unfold submit at ha
  by_cases hc : ingress.closed
  · simp [hc] at ha
  rw [if_neg hc] at ha
  cases hv : validateInputPcm format samples sampleRate ingress.config.pcmPrecision with
  | error cause => simp [hv] at ha
  | ok _ =>
    simp only [hv] at ha
    by_cases hcl : ingress.accepted + samples.length < 2 ^ 64
    · rw [if_pos hcl] at ha
      cases ht : ingress.queue.submit format.isFinite samples sampleRate with
      | error cause => simp [ht] at ha
      | ok queue =>
        simp only [ht] at ha
        exact ⟨queue, rfl, (ok.inj ha).symm⟩
    · rw [if_neg hcl] at ha
      cases ha

theorem finish_eq_ok (ha : ingress.finish policy = .ok next) : policy.finalFrame ≠ .partialFrame ∧
      ∃ queue, ingress.queue.finishWith policy = .ok queue ∧ next = { ingress with queue } := by
  unfold finish at ha
  by_cases hc : ingress.closed
  · simp [hc] at ha
  rw [if_neg hc] at ha
  by_cases hf : policy.finalFrame = .partialFrame
  · simp [hf] at ha
  rw [if_neg hf] at ha
  cases ht : ingress.queue.finishWith policy with
  | error cause => simp [ht] at ha
  | ok queue =>
    simp only [ht] at ha
    exact ⟨hf, queue, rfl, (ok.inj ha).symm⟩

variable [Zero α]

theorem reserve_eq_ok (hg : ingress.reserve = .ok (next, permit)) :
    ingress.pending = false ∧ ingress.finishCommitted = false ∧
      (∃ reserved, next = { ingress with reserved, pending := true }) ∧
      permit.frame = ingress.queue.peekFrame ∧
      (permit.frame = none → ingress.queue.isDrained = true) ∧
      permit.finish = ingress.endsWith permit.frame := by
  unfold reserve at hg
  by_cases hcl : ingress.closed
  · simp [hcl] at hg
  by_cases hp : ingress.pending
  · simp [hcl, hp] at hg
  by_cases hc : ingress.finishCommitted
  · simp [hcl, hp, hc] at hg
  rw [if_neg hcl, if_neg hp, if_neg hc] at hg
  by_cases hu : (ingress.queue.peekFrame.isNone && !ingress.queue.isDrained) = true
  · rw [if_pos hu] at hg
    cases hg
  by_cases hck : (ingress.queue.peekFrame.isSome && decide (2 ^ 64 ≤ ingress.frames + 1)) = true
  · rw [if_neg hu, if_pos hck] at hg
    cases hg
  rw [if_neg hu, if_neg hck] at hg
  obtain ⟨rfl, rfl⟩ := Prod.mk.inj (ok.inj hg)
  refine ⟨by simpa using hp, by simpa using hc, ⟨_, rfl⟩, rfl, fun hm => ?_, rfl⟩
  simp only at hm
  simpa [hm] using hu

theorem exists_reserve (ho : ingress.closed = false) (hi : ingress.pending = false)
    (hu : ingress.finishCommitted = false) (hf : ingress.queue.finish.isSome)
    (hc : ingress.frames + 1 < 2 ^ 64) : ∃ granted, ingress.reserve = .ok granted := by
  have hr : (ingress.queue.peekFrame.isNone && !ingress.queue.isDrained) = false := by
    cases hs : ingress.queue.peekFrame with
    | some frame => simp
    | none => simp [isDrained_of_peekFrame_eq_none hf hs]
  have hb : decide (2 ^ 64 ≤ ingress.frames + 1) = false := by
    simp only [decide_eq_false_iff_not, not_le]
    exact hc
  simp only [reserve, ho, hi, hu, hr, hb, Bool.and_false]
  exact ⟨_, rfl⟩

end Ingress

variable (queue : PcmFrameQueue α) (frame : Option (PcmFrame α))

/-- The queue once the frame of a permit has left it. -/
def PcmFrameQueue.after : PcmFrameQueue α :=
  if frame.isSome then queue.withoutFrame else queue

/-- A permit is for the head of the queue, and marks the finish only if nothing is left then. -/
structure Held [Zero α] (queue : PcmFrameQueue α) (permit : VoiceChatInputPermit α) : Prop where
  frame : permit.frame = queue.peekFrame
  marker : permit.frame = none → queue.isDrained = true
  last : permit.finish = true → (queue.after permit.frame).isDrained = true

structure Sound [Zero α] (host : Host α) : Prop where
  frameSamples : host.ingress.queue.frameSamples = INPUT_FRAME_SAMPLES
  carries : Carries host.ingress.queue host.stream host.ingress.frames
  accepted : host.ingress.accepted = host.stream.length
  committed : host.ingress.committed = host.ingress.queue.consumed
  length : host.delivered.length = host.ingress.frames
  delivered : ∀ index frame, host.delivered[index]? = some frame →
    expectedFrame INPUT_FRAME_SAMPLES host.stream host.ingress.queue.finish index = some frame
  pending : host.ingress.pending = host.permit.isSome
  held : ∀ permit, host.permit = some permit →
    Held host.ingress.queue permit ∧ host.ingress.finishCommitted = false
  drained : host.ingress.finishCommitted = true → host.ingress.queue.isDrained = true
  finishes : host.finishes = if host.ingress.finishCommitted then 1 else 0

section Preservation

variable [Zero α] {format : SampleFormat α} {host : Host α}

omit [Zero α] in
theorem inputFrame_pos : 0 < INPUT_FRAME_SAMPLES := by decide

theorem sound_start {config : VoiceChatInputConfig} (hc : Ingress.new config = .ok ingress) :
    Sound (Host.start ingress) := by
  unfold Ingress.new PcmFrameQueue.new at hc
  split at hc
  · cases hc
  rename_i queue hs
  obtain rfl := ok.inj hc
  split at hs
  · cases hs
  obtain rfl := ok.inj hs
  refine ⟨rfl, ⟨inputFrame_pos, List.drop_nil.symm, (Nat.zero_mul _).symm, ?_, Nat.zero_le _,
    Nat.two_pow_pos 64, fun _ => ⟨rfl, ?_⟩, nofun⟩, rfl, rfl, rfl, nofun, rfl, nofun, nofun, rfl⟩
  · simp [Host.start]
  · simp [Host.start]

omit [Zero α] in
theorem finished_of_isDrained {queue : PcmFrameQueue α} (drained : queue.isDrained = true) :
    queue.finish ≠ none := by
  intro unfinished
  simp [isDrained, unfinished] at drained

omit [Zero α] in
theorem finish_after : (queue.after frame).finish = queue.finish := by
  unfold after
  split <;> rfl

/-- What is appended or declared behind a permit leaves its head as it is. -/
theorem Held.behind {queue next : PcmFrameQueue α} (hhe : Held queue permit)
    (hu : queue.finish = none)
    (hk : ∀ frame, queue.peekFrame = some frame → next.peekFrame = some frame) :
    Held next permit := by
  cases hh : permit.frame with
  | none => exact absurd hu (finished_of_isDrained (hhe.marker hh))
  | some frame =>
    refine ⟨?_, by simp [hh], fun hm => ?_⟩
    · rw [hh, hk frame (hhe.frame.symm.trans hh)]
    · have hf := finished_of_isDrained (hhe.last hm)
      rw [finish_after] at hf
      exact absurd hu hf

namespace Sound

theorem replace (hs : Sound host) {queue : PcmFrameQueue α} {stream more : List α}
    {accepted : Nat} (hu : host.ingress.queue.finish = none) (ha : stream = host.stream ++ more)
    (hc : Carries queue stream host.ingress.frames)
    (hf : queue.frameSamples = host.ingress.queue.frameSamples)
    (hco : queue.consumed = host.ingress.queue.consumed) (hcd : accepted = stream.length) :
    Sound { host with ingress := { host.ingress with queue, accepted }, stream } := by
  have hst : ∀ index frame,
      expectedFrame INPUT_FRAME_SAMPLES host.stream host.ingress.queue.finish index = some frame →
      expectedFrame INPUT_FRAME_SAMPLES stream queue.finish index = some frame := by
    intro index frame hr
    rw [hu] at hr
    rw [ha]
    exact expectedFrame_stable inputFrame_pos hr more queue.finish
  have hsi : queue.frameSamples = INPUT_FRAME_SAMPLES := hf.trans hs.frameSamples
  refine ⟨hsi, hc, hcd, hs.committed.trans hco.symm, hs.length,
    fun index frame at_ => hst index frame (hs.delivered index frame at_), hs.pending,
    fun permit hh => ?_, fun hm => ?_, hs.finishes⟩
  · obtain ⟨hhe, hun⟩ := hs.held permit hh
    refine ⟨hhe.behind hu fun frame hse => ?_, hun⟩
    rw [hs.carries.peekFrame_eq, hs.frameSamples] at hse
    rw [hc.peekFrame_eq, hsi]
    exact hst _ _ hse
  · exact absurd hu (finished_of_isDrained (hs.drained hm))

theorem submit (hs : Sound host) (ha : host.ingress.submit format samples sampleRate = .ok next) :
    Sound { host with ingress := next, stream := host.stream ++ samples } := by
  obtain ⟨queue, ht, rfl⟩ := Ingress.submit_eq_ok ha
  have hc := hs.carries.submit ht
  obtain ⟨hu, _, _, rfl⟩ := submit_eq_ok ht
  apply hs.replace hu rfl hc rfl rfl
  rw [hs.accepted, List.length_append]

theorem finish (hs : Sound host)
    (ha : host.ingress.finish policy = .ok next) : Sound { host with ingress := next } := by
  obtain ⟨hf, queue, ht, rfl⟩ := Ingress.finish_eq_ok ha
  have hc := hs.carries.finishWith hf ht
  obtain ⟨_, rfl⟩ | ⟨hu, _, _, rfl⟩ := finishWith_eq_ok ht
  · exact hs
  · exact hs.replace hu (List.append_nil _).symm hc rfl rfl hs.accepted

theorem after_endsWith (hsd : Sound host)
    (he : host.ingress.endsWith host.ingress.queue.peekFrame = true) :
    (host.ingress.queue.after host.ingress.queue.peekFrame).isDrained = true := by
  simp only [Ingress.endsWith, Bool.and_eq_true] at he
  obtain ⟨hf, he⟩ := he
  cases hse : host.ingress.queue.peekFrame with
  | none => exact isDrained_of_peekFrame_eq_none hf hse
  | some frame =>
    obtain ⟨_, hso, _, _⟩ := hsd.carries.consumeFrame_eq hse
    simp only [hse, Option.any_some, decide_eq_true_eq] at he
    by_cases hs : frame.source = .continuation
    · have hem : host.ingress.queue.samples = [] := by
        by_contra hn
        simp [nextSource, hn, hs] at hso
      rw [if_pos hs, decide_eq_true_eq] at he
      simp [after, isDrained, withoutFrame, hf, hso, hs, he, hem]
    · rw [if_neg hs, Bool.and_eq_true, decide_eq_true_eq, decide_eq_true_eq,
        ← hsd.frameSamples] at he
      simp [after, isDrained, withoutFrame, hf, hso, hs, he, nextValidSamples]

theorem reserve (hs : Sound host) (hg : host.ingress.reserve = .ok (next, permit)) :
    Sound { host with ingress := next, permit := some permit } := by
  obtain ⟨_, hu, ⟨_, rfl⟩, hf, hm, he⟩ := Ingress.reserve_eq_ok hg
  refine ⟨hs.frameSamples, hs.carries, hs.accepted, hs.committed, hs.length,
    hs.delivered, rfl, fun other hsa => ?_, hs.drained, hs.finishes⟩
  obtain rfl := Option.some.inj hsa
  refine ⟨⟨hf, hm, fun hma => ?_⟩, hu⟩
  rw [hf] at he ⊢
  exact hs.after_endsWith (he.symm.trans hma)

theorem abandon (hs : Sound host) :
    Sound { host with ingress := VoiceChatInputPermit.drop host.ingress, permit := none } :=
  ⟨hs.frameSamples, hs.carries, hs.accepted, hs.committed, hs.length,
    hs.delivered, rfl, nofun, hs.drained, hs.finishes⟩

theorem close (hs : Sound host) : Sound { host with ingress := host.ingress.close } :=
  ⟨hs.frameSamples, hs.carries, hs.accepted, hs.committed, hs.length,
    hs.delivered, hs.pending, hs.held, hs.drained, hs.finishes⟩

theorem commit (hs : Sound host) (out : host.permit = some permit) :
    ∃ next, permit.commit host.ingress = some next ∧
      Sound { host with
              ingress := next
              permit := none
              delivered := host.delivered ++ permit.frame.toList
              finishes := host.finishes + if permit.finish then 1 else 0 } := by
  obtain ⟨hhe, hu⟩ := hs.held permit out
  have hf := hs.finishes
  rw [hu] at hf
  cases hh : permit.frame with
  | none =>
    refine ⟨_, by simp only [VoiceChatInputPermit.commit, hh]; rfl, ?_⟩
    refine ⟨hs.frameSamples, hs.carries, hs.accepted, hs.committed, ?_, ?_, rfl, nofun,
      fun _ => hhe.marker hh, ?_⟩
    · simpa using hs.length
    · simpa using hs.delivered
    · simp [hu, hf]
  | some frame =>
    have hse := hhe.frame.symm.trans hh
    obtain ⟨hr, _, hv, hc⟩ := hs.carries.consumeFrame_eq hse
    have he := hse
    rw [hs.carries.peekFrame_eq, hs.frameSamples] at he
    refine ⟨_, by simp only [VoiceChatInputPermit.commit, hh, Ingress.consumeHead, hc]; rfl, ?_⟩
    refine ⟨hs.frameSamples, hs.carries.withoutFrame hr, hs.accepted, ?_, ?_, ?_, rfl,
      nofun, ?_, ?_⟩
    · exact congrArg₂ (· + ·) hs.committed hv.symm
    · simpa using hs.length
    · intro index found at_
      rw [List.getElem?_append] at at_
      split at at_
      · exact hs.delivered index found at_
      rename_i hb
      rw [hs.length] at hb at_
      have hl : index = host.ingress.frames := by
        by_contra ho
        have : index - host.ingress.frames ≠ 0 := by omega
        simp [this] at at_
      subst hl
      simp at at_
      exact at_ ▸ he
    · intro hm
      have hen : permit.finish = true := by simpa [hu] using hm
      have hd := hhe.last hen
      rwa [hh] at hd
    · simp [hu, hf]

end Sound

end Preservation

end Eredu.Voice
