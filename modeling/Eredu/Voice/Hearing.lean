import Eredu.Voice.Ingress

/-!
# Every accepted sample is heard once

Over every sequence of requests, the committed frames are the frames of the accepted
samples. Neither the way the samples were divided nor the permits that were dropped
have a part in them.
-/

namespace Eredu.Voice

open List Nat Option Ingress

variable {α : Type} [Zero α] (format : SampleFormat α) {host : Host α}

theorem Sound.step (sound : Sound host) (command : Command α) :
    ∃ next, host.step format command = some next ∧ Sound next := by
  cases command with
  | submit samples sampleRate =>
    cases taken : host.ingress.submit format samples sampleRate with
    | error _ => exact ⟨host, by simp only [Host.step, taken], sound⟩
    | ok _ => exact ⟨_, by simp only [Host.step, taken], sound.submit taken⟩
  | finish policy =>
    cases taken : host.ingress.finish policy with
    | error _ => exact ⟨host, by simp only [Host.step, taken], sound⟩
    | ok _ => exact ⟨_, by simp only [Host.step, taken], sound.finish taken⟩
  | reserve =>
    cases granted : host.ingress.reserve with
    | error _ => exact ⟨host, by simp only [Host.step, granted], sound⟩
    | ok _ => exact ⟨_, by simp only [Host.step, granted], sound.reserve granted⟩
  | abandon =>
    cases out : host.permit with
    | none => exact ⟨host, by simp only [Host.step, out], sound⟩
    | some _ => exact ⟨_, by simp only [Host.step, out], sound.abandon⟩
  | commit =>
    cases out : host.permit with
    | none => exact ⟨host, by simp only [Host.step, out], sound⟩
    | some permit =>
      obtain ⟨next, committed, kept⟩ := sound.commit out
      exact ⟨_, by simp only [Host.step, out, committed, map_some], kept⟩
  | close => exact ⟨_, rfl, sound.close⟩

theorem Sound.run (sound : Sound host) (commands : List (Command α)) :
    ∃ final, host.run format commands = some final ∧ Sound final := by
  induction commands generalizing host with
  | nil => exact ⟨host, rfl, sound⟩
  | cons command commands ih =>
    obtain ⟨next, stepped, kept⟩ := sound.step format command
    obtain ⟨final, ran, reached⟩ := ih kept
    refine ⟨final, ?_, reached⟩
    simp only [Host.run, foldlM_cons, stepped]
    exact ran

theorem flatMap_valid {frameSamples : Nat} (positive : 0 < frameSamples) {stream : List α}
    {finish : Option PcmFinishPolicy} (frames : List (PcmFrame α))
    (expected : ∀ index frame, frames[index]? = some frame →
      expectedFrame frameSamples stream finish index = some frame) :
    frames.flatMap PcmFrame.valid = stream.take (frames.length * frameSamples) := by
  induction frames using reverseRecOn with
  | nil => simp
  | append_singleton frames last ih =>
    have earlier := ih fun index frame found => expected index frame
      (List.getElem?_append_left (List.getElem?_eq_some_iff.mp found).1 ▸ found)
    have ends := expected frames.length last (by simp)
    rw [flatMap_append, earlier, length_append, length_singleton, succ_mul,
      take_add, ← expectedFrame_valid positive ends]
    simp

structure Heard (host : Host α) : Prop where
  /-- Nothing that was accepted is lost or counted twice. -/
  accounted : host.ingress.status.acceptedSamples = host.stream.length ∧
    host.ingress.status.acceptedSamples =
      host.ingress.status.committedSamples + host.ingress.status.queuedSamples
  /-- The committed frames hold the accepted samples in order. -/
  inOrder : host.delivered.flatMap PcmFrame.valid =
    host.stream.take host.ingress.status.committedSamples
  /-- Frames start at the multiples of the frame length. -/
  starts : ∀ (index : Nat) (frame : PcmFrame α), host.delivered[index]? = some frame →
    frame.startSample = index * INPUT_FRAME_SAMPLES
  /-- A short frame of input is the last one, and comes after the finish. -/
  short : ∀ (index : Nat) (frame : PcmFrame α), host.delivered[index]? = some frame →
    frame.source = .input → frame.validSamples < INPUT_FRAME_SAMPLES →
    host.ingress.status.finished = true ∧
      ∀ (later : Nat) (frame : PcmFrame α), index < later → host.delivered[later]? = some frame →
        frame.source = .continuation
  /-- Once the finish is committed, the whole input was heard, and then the declared silence. -/
  ended : host.ingress.status.finishCommitted = true →
    host.ingress.status.committedSamples = host.stream.length ∧
    ∃ policy inputs, host.ingress.queue.finish = some policy ∧
      (∀ frame ∈ inputs, frame.source = .input) ∧
      host.delivered = inputs ++ (range policy.trailingSilenceFrames).map fun offset =>
        silentFrame α INPUT_FRAME_SAMPLES (inputs.length + offset)
  /-- The finish is committed at most once. -/
  once : host.finishes = if host.ingress.status.finishCommitted then 1 else 0
  /-- After that nothing is left and no permit is granted. -/
  concluded : host.ingress.status.finishCommitted = true →
    host.ingress.queue.isDrained = true ∧ host.permit = none ∧
      (host.ingress.closed = false → host.ingress.validateDrain = .ok ()) ∧
      ∀ granted, host.ingress.reserve ≠ .ok granted
  /-- Until then a finished input can be read on. -/
  readable : host.ingress.status.closed = false → host.permit = none →
    host.ingress.status.finished = true → host.ingress.status.finishCommitted = false →
    ∃ granted, host.ingress.reserve = .ok granted

namespace Sound

theorem accounted (sound : Sound host) :
    host.ingress.accepted = host.ingress.committed + host.ingress.queue.samples.length := by
  rw [sound.accepted, sound.committed, sound.carries.consumed, sound.carries.length_samples]
  omega

theorem inOrder (sound : Sound host) :
    host.delivered.flatMap PcmFrame.valid = host.stream.take host.ingress.committed := by
  rw [flatMap_valid inputFrame_pos _ sound.delivered, sound.length, sound.committed,
    sound.carries.consumed, sound.frameSamples, ← take_eq_take_min]

theorem short (sound : Sound host) {index : Nat} {frame : PcmFrame α}
    (found : host.delivered[index]? = some frame) (input : frame.source = .input)
    (fewer : frame.validSamples < INPUT_FRAME_SAMPLES) : host.ingress.queue.finish.isSome = true ∧
      ∀ (later : Nat) (frame : PcmFrame α), index < later → host.delivered[later]? = some frame →
        frame.source = .continuation := by
  have expected := sound.delivered index frame found
  obtain ⟨_, whole, same⟩ | ⟨_, _, same⟩ := expectedFrame_cases inputFrame_pos expected
  · have tail : (host.stream.drop (index * INPUT_FRAME_SAMPLES)).length <
        INPUT_FRAME_SAMPLES := by
      have : frame.validSamples = min _ INPUT_FRAME_SAMPLES := congrArg PcmFrame.validSamples same
      omega
    refine ⟨whole.resolve_left (by omega), fun later other after delivered => ?_⟩
    have beyond : host.stream.drop (later * INPUT_FRAME_SAMPLES) = [] := by
      rw [length_drop] at tail
      have := mul_le_mul_right INPUT_FRAME_SAMPLES after
      rw [succ_mul] at this
      exact drop_eq_nil_of_le (by omega)
    obtain ⟨more, _⟩ | ⟨_, _, silent⟩ :=
      expectedFrame_cases inputFrame_pos (sound.delivered later other delivered)
    · exact absurd beyond more
    · rw [silent, silentFrame]
  · rw [same, silentFrame] at input
    cases input

theorem ended (sound : Sound host) (committed : host.ingress.finishCommitted = true) :
    host.ingress.committed = host.stream.length ∧
    ∃ policy inputs, host.ingress.queue.finish = some policy ∧
      (∀ frame ∈ inputs, frame.source = .input) ∧
      host.delivered = inputs ++ (range policy.trailingSilenceFrames).map fun offset =>
        silentFrame α INPUT_FRAME_SAMPLES (inputs.length + offset) := by
  obtain ⟨policy, finish, all⟩ := sound.carries.isDrained_iff.mp (sound.drained committed)
  have covers := inputFrames_le_iff inputFrame_pos host.stream
  rw [sound.frameSamples] at all
  have total := sound.length.trans all
  refine ⟨?_, policy, host.delivered.take (inputFrames INPUT_FRAME_SAMPLES host.stream), finish,
    fun frame member => ?_, ?_⟩
  · have whole := (covers host.ingress.frames).mp (by omega)
    rw [sound.committed, sound.carries.consumed, sound.frameSamples]
    omega
  · obtain ⟨index, found⟩ := getElem?_of_mem member
    have inside := (List.getElem?_eq_some_iff.mp found).1
    rw [length_take] at inside
    rw [getElem?_take_of_lt (by omega)] at found
    obtain ⟨_, _, same⟩ | ⟨beyond, _⟩ :=
      expectedFrame_cases inputFrame_pos (sound.delivered index frame found)
    · rw [same, cutFrame]
    · have := (covers index).mpr (drop_eq_nil_iff.mp beyond)
      omega
  · have taken : (host.delivered.take (inputFrames INPUT_FRAME_SAMPLES host.stream)).length =
        inputFrames INPUT_FRAME_SAMPLES host.stream := by
      rw [length_take]
      omega
    rw [taken]
    conv_lhs => rw [← take_append_drop (inputFrames INPUT_FRAME_SAMPLES host.stream) host.delivered]
    congr 1
    apply ext_getElem
    · rw [length_drop, length_map, length_range]
      omega
    · intro offset inside _
      have found := getElem?_eq_getElem inside
      rw [getElem?_drop] at found
      have beyond : host.stream.drop
          ((inputFrames INPUT_FRAME_SAMPLES host.stream + offset) * INPUT_FRAME_SAMPLES) = [] :=
        drop_eq_nil_of_le ((covers _).mp (le_add_right _ _))
      obtain ⟨more, _⟩ | ⟨_, _, same⟩ :=
        expectedFrame_cases inputFrame_pos (sound.delivered _ _ found)
      · exact absurd beyond more
      · rw [same, getElem_map, getElem_range]

theorem concluded (sound : Sound host) (committed : host.ingress.finishCommitted = true) :
    host.permit = none ∧ (host.ingress.closed = false → host.ingress.validateDrain = .ok ()) ∧
      ∀ granted, host.ingress.reserve ≠ .ok granted := by
  have unused : host.permit = none := by
    by_contra out
    obtain ⟨permit, held⟩ := ne_none_iff_exists'.mp out
    rw [(sound.held permit held).2] at committed
    cases committed
  refine ⟨unused, fun opened => ?_, fun granted same => ?_⟩
  · simp [validateDrain, opened, sound.pending, unused, committed, sound.drained committed]
  · rw [(reserve_eq_ok same).2.1] at committed
    cases committed

theorem heard (sound : Sound host) : Heard host where
  accounted := ⟨sound.accepted, sound.accounted⟩
  inOrder := sound.inOrder
  starts index frame found :=
    expectedFrame_startSample inputFrame_pos (sound.delivered index frame found)
  short _ _ found input fewer := sound.short found input fewer
  ended committed := sound.ended committed
  once := sound.finishes
  concluded committed := ⟨sound.drained committed, sound.concluded committed⟩
  readable opened idle finished uncommitted := by
    have bound := sound.carries.frames_mul_lt
    rw [sound.frameSamples, INPUT_FRAME_SAMPLES] at bound
    apply exists_reserve opened ?_ uncommitted finished (by omega)
    rw [sound.pending, idle, isSome_none]

/-- Two runs that accepted the same samples committed the same frames, as far as both went. -/
theorem isPrefixOf {other : Host α} (sound : Sound host) (otherSound : Sound other)
    (same : other.stream = host.stream) (fewer : other.delivered.length ≤ host.delivered.length) :
    other.delivered <+: host.delivered := by
  rw [prefix_iff_getElem?]
  intro index inside
  have foundOther := getElem?_eq_getElem inside
  have found := getElem?_eq_getElem (l := host.delivered) (i := index) (by omega)
  have expected := otherSound.delivered _ _ foundOther
  rw [same] at expected
  rw [found, expectedFrame_unique inputFrame_pos (sound.delivered _ _ found) expected]

end Sound

/-- No sequence of requests stops the ingress. Whatever it is, every accepted sample is heard
once, and the committed frames depend on the accepted samples alone. -/
theorem every_sample_heard_once {config : VoiceChatInputConfig} {ingress : Ingress α}
    (created : new config = .ok ingress) (commands : List (Command α)) :
    ∃ host, (Host.start ingress).run format commands = some host ∧ Heard host ∧
      ∀ otherConfig (otherIngress : Ingress α) otherCommands other,
        new otherConfig = .ok otherIngress →
        (Host.start otherIngress).run format otherCommands = some other →
        other.stream = host.stream → other.delivered.length ≤ host.delivered.length →
        other.delivered <+: host.delivered := by
  obtain ⟨host, ran, sound⟩ := (sound_start created).run format commands
  refine ⟨host, ran, sound.heard, ?_⟩
  intro otherConfig otherIngress otherCommands other otherCreated otherRan same fewer
  obtain ⟨reached, ranOther, otherSound⟩ := (sound_start otherCreated).run format otherCommands
  obtain rfl := some.inj (otherRan.symm.trans ranOther)
  exact sound.isPrefixOf otherSound same fewer

def wholeFormat : SampleFormat Int where
  isFinite _ := true
  roundPcm _ sample := sample

theorem every_sample_heard_once_abandoned :
    ∃ ingress : Ingress Int, new ⟨INPUT_FRAME_SAMPLES, .f32⟩ = .ok ingress ∧
      ∃ host, (Host.start ingress).run wholeFormat
        [.submit [3, 5] 16000, .finish ⟨.zeroPad, 1⟩, .reserve, .abandon, .reserve, .commit] =
          some host ∧ Heard host := by
  refine ⟨_, rfl, ?_⟩
  have created : (new ⟨INPUT_FRAME_SAMPLES, .f32⟩ : Except _ (Ingress Int)) = .ok _ := rfl
  obtain ⟨host, ran, heard, _⟩ := every_sample_heard_once wholeFormat created
    [.submit [3, 5] 16000, .finish ⟨.zeroPad, 1⟩, .reserve, .abandon, .reserve, .commit]
  exact ⟨host, ran, heard⟩

end Eredu.Voice
