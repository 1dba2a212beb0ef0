import Eredu.Speculation.Generation
import Eredu.Streaming.StopMatcher

/-!
# The semantic stream

A semantic stream hands decoded text to a protocol parser after the stop matcher
has seen it, and it alone writes the terminal event. What a parser writes is of a
type of its own, so a parser cannot write a terminal event, just as the sink keeps
that method private. `Continues` says what every call of an unfinished stream does
to its events: it appends what the parser wrote and, if the stream ends in the call,
one terminal event after it.
-/

namespace Eredu.Streaming

open Speculation (FinishReason TokenId)
open Effect StopMatcher Bool

inductive SemanticEvent (φ : Type) where
  | part (content : φ)
  | finished (reason : FinishReason)
  deriving DecidableEq, Repr

variable (π φ : Type)

/-- What one call of a parser leaves. A call that fails keeps what it wrote before. -/
structure Parsed where
  written : List φ
  result : Except String Unit
  parser : π

structure ProtocolParser where
  push : String → π → Parsed π φ
  structural : TokenId → String → π → Parsed π φ
  stop : String → π → Parsed π φ
  finish : π → Parsed π φ

/-- Applies stop matching before any bytes can reach a protocol parser. -/
structure SemanticStream where
  parser : π
  stops : StopMatcher
  structuralStops : List String
  events : List (SemanticEvent φ)
  finished : Bool

abbrev StreamM := Effect (SemanticStream π φ) String

namespace SemanticStream

variable {π φ α : Type}

def new (parser : π) (profileStops callerStops structuralStopSpellings : List String) :
    SemanticStream π φ where
  parser := parser
  stops := StopMatcher.new (profileStops.filter (· ∉ structuralStopSpellings)) callerStops
  structuralStops := structuralStopSpellings
  events := []
  finished := false

def parse (call : π → Parsed π φ) : StreamM π φ Unit := ExceptT.mk fun stream =>
  let parsed := call stream.parser
  (parsed.result.mapError .error,
    { stream with
      parser := parsed.parser
      events := stream.events ++ parsed.written.map .part })

def matching (m : StopM α) : StreamM π φ α :=
  on Empty.elim stops (fun stops stream => { stream with stops := stops }) m

/-- `sink.finish(reason)`, after which the stream is finished. -/
def conclude (reason : FinishReason) (stream : SemanticStream π φ) : SemanticStream π φ :=
  { stream with events := stream.events ++ [.finished reason], finished := true }

section

variable (protocol : ProtocolParser π φ)

def halt : Option String → StreamM π φ Unit
  | none => pure ()
  | some sequence => do
    parse (protocol.stop sequence)
    modify (conclude .stopSequence)

def push (text : String) : StreamM π φ Bool := do
  let stream ← get
  if stream.finished then
    return true
  let stopMatch ← matching (StopMatcher.push text)
  parse (protocol.push stopMatch.visible)
  halt protocol stopMatch.matched
  return (← get).finished

def atomic (tokenId : TokenId) (spelling : String) : StreamM π φ Unit := do
  let stream ← get
  if spelling ∈ stream.structuralStops then
    halt protocol (some spelling)
  else
    parse (protocol.structural tokenId spelling)

def structural (tokenId : TokenId) (spelling : String) : StreamM π φ Bool := do
  let stream ← get
  if stream.finished then
    return true
  let visible ← matching finish
  parse (protocol.push visible)
  atomic protocol tokenId spelling
  return (← get).finished

def finish (reason : FinishReason) : StreamM π φ Unit := do
  let stream ← get
  if stream.finished then
    return
  let visible ← matching StopMatcher.finish
  parse (protocol.push visible)
  parse protocol.finish
  modify (conclude reason)

end

/-- Cancels without flushing lookbehind or asking the protocol parser to close incomplete
structures. -/
def cancel (stream : SemanticStream π φ) : SemanticStream π φ :=
  if stream.finished then stream else stream.conclude .cancelled

end SemanticStream

def StopMatcher.Sound (matcher : StopMatcher) : Prop :=
  ∃ stops : List (List Char), (∀ stop ∈ stops, stop ≠ []) ∧
    ((∃ shown pending, Scan.Cleared stops shown pending ∧ matcher = holding stops pending) ∨
      matcher = stopped stops)

variable (text : String)

def StopMatcher.completes (matcher : StopMatcher) : Bool :=
  match ((push text).outcome matcher).1 with
  | .ok stopMatch => stopMatch.matched.isSome
  | .error _ => false

theorem StopMatcher.sound_new (profileStops callerStops : List String) :
    (new profileStops callerStops).Sound := by
  obtain ⟨stops, hc, hs⟩ := new_eq_holding profileStops callerStops
  have hn : ∀ stop ∈ stops, stop ≠ [] := fun stop hl =>
    stopTexts_nonempty profileStops callerStops stop ((hs.mem stop).mp hl)
  exact ⟨stops, hn, .inl ⟨[], [], Scan.cleared_nil hn, hc⟩⟩

variable {matcher : StopMatcher}

theorem StopMatcher.Sound.push (hs : matcher.Sound) (text : String) :
    ∃ stopMatch after, (push text).outcome matcher = (.ok stopMatch, after) ∧
      after.Sound ∧ stopMatch.matched.isSome = matcher.completes text := by
  obtain ⟨stops, hn, ⟨shown, pending, hcl, rfl⟩ | rfl⟩ := hs
  · cases hf : Scan.firstMatch stops (pending ++ text.toList) with
    | none =>
      obtain ⟨first, second, -, hc, hp⟩ := outcome_push_unmatched hn hcl hf
      refine ⟨_, _, hp, ⟨stops, hn, .inl ⟨_, second, hc, rfl⟩⟩, ?_⟩
      rw [completes, hp]
    | some occurrence =>
      have hp := outcome_push_matched hn hf
      refine ⟨_, _, hp, ⟨stops, hn, .inr rfl⟩, ?_⟩
      rw [completes, hp]
  · exact ⟨_, _, outcome_push_stopped text, ⟨stops, hn, .inr rfl⟩, rfl⟩

theorem StopMatcher.Sound.finish (hs : matcher.Sound) :
    ∃ visible after, finish.outcome matcher = (.ok visible, after) ∧ after.Sound := by
  obtain ⟨stops, hn, ⟨shown, pending, -, rfl⟩ | rfl⟩ := hs
  · exact ⟨_, _, outcome_finish pending, stops, hn, .inl ⟨[], [], Scan.cleared_nil hn, rfl⟩⟩
  · exact ⟨_, _, outcome_finish_stopped, stops, hn, .inr rfl⟩

variable (tokenId : TokenId) (spelling : String)

namespace SemanticStream

variable {π φ α : Type} {protocol : ProtocolParser π φ} {stream before after : SemanticStream π φ}

structure Running (stream : SemanticStream π φ) : Prop where
  sound : stream.stops.Sound
  unfinished : stream.finished = false

/-- `after` is `before` with what the parser wrote and, where the stream ended in between, one
terminal event. -/
structure Continues (reason : FinishReason) (ended : Bool) (before after : SemanticStream π φ) :
    Prop where
  sound : after.stops.Sound
  finished : after.finished = ended
  events : ∃ written : List φ,
    after.events = before.events ++ written.map .part ++ (if ended then [.finished reason] else [])

theorem running_new (parser : π) (profileStops callerStops structuralStopSpellings : List String) :
    (new parser profileStops callerStops structuralStopSpellings : SemanticStream π φ).Running :=
  ⟨StopMatcher.sound_new _ _, rfl⟩

namespace Continues

variable {reason : FinishReason} {ended : Bool} {middle : SemanticStream π φ}

theorem running (hc : Continues reason false before after) : after.Running :=
  ⟨hc.sound, hc.finished⟩

theorem trans {other : FinishReason} (hf : Continues other false before middle)
    (hs : Continues reason ended middle after) : Continues reason ended before after := by
  obtain ⟨early, hw⟩ := hf.events
  obtain ⟨late, hwr⟩ := hs.events
  refine ⟨hs.sound, hs.finished, early ++ late, ?_⟩
  rw [hwr, hw]
  simp

theorem concluded (hc : Continues reason false before after) (reason : FinishReason) :
    Continues reason true before (after.conclude reason) := by
  obtain ⟨written, hw⟩ := hc.events
  refine ⟨hc.sound, rfl, written, ?_⟩
  rw [conclude, hw]
  simp

theorem of_stops (hc : Continues reason ended { before with stops := matcher } after) :
    Continues reason ended before after :=
  ⟨hc.sound, hc.finished, hc.events⟩

end Continues

theorem yields_matching {m : StopM α} {value : α}
    {returned : α → SemanticStream π φ → Prop} {stopped : Fault String → SemanticStream π φ → Prop}
    (ran : m.outcome stream.stops = (.ok value, matcher))
    (hh : returned value { stream with stops := matcher }) :
    (matching m).Yields stream returned stopped := by
  unfold Yields matching
  rw [outcome_on, ran]
  exact hh

theorem yields_parse (call : π → Parsed π φ) (hr : stream.Running) (reason : FinishReason) :
    (parse call).Yields stream (fun _ => Continues reason false stream) Reported := by
  have ran : (parse call).outcome stream =
      ((call stream.parser).result.mapError .error,
        { stream with
          parser := (call stream.parser).parser
          events := stream.events ++ (call stream.parser).written.map .part }) := rfl
  unfold Yields
  rw [ran]
  cases (call stream.parser).result with
  | ok value => exact ⟨hr.sound, hr.unfinished, _, (List.append_nil _).symm⟩
  | error cause => exact ⟨cause, rfl⟩

theorem yields_halt (matched : Option String) (hr : stream.Running) :
    (halt protocol matched).Yields stream
      (fun _ => Continues .stopSequence matched.isSome stream) Reported := by
  cases matched with
  | none => exact ⟨hr.sound, hr.unfinished, [], by simp⟩
  | some sequence =>
    refine (yields_parse _ hr .stopSequence).andThen ?_
    intro _ after hw
    exact yields_modify _ |>.mpr (hw.concluded .stopSequence)

theorem yields_push (hr : stream.Running) : (push protocol text).Yields stream
      (fun matched after => matched = stream.stops.completes text ∧
        Continues .stopSequence matched stream after) Reported := by
  obtain ⟨stopMatch, matcher, hp, hs, hf⟩ := hr.sound.push text
  have hre : Running { stream with stops := matcher } := ⟨hs, hr.unfinished⟩
  refine .bind (yields_get.mpr ?_)
  simp only [hr.unfinished, Bool.false_eq_true]
  refine .bind (yields_matching hp ?_)
  refine (yields_parse _ hre .stopSequence).andThen ?_
  intro _ middle hw
  refine (yields_halt _ hw.running).andThen ?_
  intro _ after hh
  refine .bind (yields_get.mpr (yields_pure _ |>.mpr ?_))
  rw [hh.finished, hf]
  exact ⟨rfl, hf ▸ (hw.trans hh).of_stops⟩

theorem yields_atomic (hr : stream.Running) : (atomic protocol tokenId spelling).Yields stream
      (fun _ after => ∃ ended, Continues .stopSequence ended stream after) Reported := by
  refine .bind (yields_get.mpr ?_)
  split
  · exact (yields_halt _ hr).mono (fun _ _ hh => ⟨true, hh⟩) fun _ _ => id
  · exact (yields_parse _ hr _).mono (fun _ _ hw => ⟨false, hw⟩) fun _ _ => id

theorem yields_structural (hr : stream.Running) :
    (structural protocol tokenId spelling).Yields stream
      (fun matched after => Continues .stopSequence matched stream after) Reported := by
  obtain ⟨visible, matcher, hf, hs⟩ := hr.sound.finish
  have hre : Running { stream with stops := matcher } := ⟨hs, hr.unfinished⟩
  refine .bind (yields_get.mpr ?_)
  simp only [hr.unfinished, false_eq_true]
  refine .bind (yields_matching hf ?_)
  refine (yields_parse _ hre .stopSequence).andThen ?_
  intro _ middle hw
  refine (yields_atomic _ _ hw.running).andThen ?_
  rintro _ after ⟨ended, hh⟩
  refine .bind (yields_get.mpr (yields_pure _ |>.mpr ?_))
  rw [hh.finished]
  exact (hw.trans hh).of_stops

theorem yields_finish (reason : FinishReason) (hr : stream.Running) :
    (finish protocol reason).Yields stream (fun _ => Continues reason true stream) Reported := by
  obtain ⟨visible, matcher, hf, hs⟩ := hr.sound.finish
  have hre : Running { stream with stops := matcher } := ⟨hs, hr.unfinished⟩
  refine .bind (yields_get.mpr ?_)
  simp only [hr.unfinished, Bool.false_eq_true]
  refine .bind (yields_matching hf ?_)
  refine (yields_parse _ hre reason).andThen ?_
  intro _ middle hw
  refine (yields_parse _ hw.running reason).andThen ?_
  intro _ after hc
  exact yields_modify _ |>.mpr (((hw.trans hc).of_stops).concluded reason)

theorem continues_cancel (hr : stream.Running) :
    Continues .cancelled true stream stream.cancel := by
  unfold cancel
  rw [if_neg (by simp [hr.unfinished])]
  exact ⟨hr.sound, rfl, [], by simp [conclude]⟩

/-! A finished stream takes nothing more. -/

theorem outcome_push_finished (hf : stream.finished = true) :
    (push protocol text).outcome stream = (.ok true, stream) := by
  unfold push
  rw [outcome_bind, outcome_get]
  simp only [hf, if_true, outcome_pure]

theorem outcome_structural_finished (hf : stream.finished = true) :
    (structural protocol tokenId spelling).outcome stream = (.ok true, stream) := by
  unfold structural
  rw [outcome_bind, outcome_get]
  simp only [hf, if_true, outcome_pure]

theorem outcome_finish_finished (reason : FinishReason) (hf : stream.finished = true) :
    (finish protocol reason).outcome stream = (.ok (), stream) := by
  unfold finish
  rw [outcome_bind, outcome_get]
  simp only [hf, if_true, outcome_pure]

end SemanticStream

end Eredu.Streaming
