import Eredu.Streaming.SemanticStream

/-!
# The committed token pipeline

A committed token is decoded to bytes, the bytes are assembled to text and the
text goes through the semantic stream. The pipeline is written here up to the
delivery of its events: `accept` is `push_cancellable` and `finish` the method of
the same name before they drain the stream.
-/

namespace Eredu.Streaming

open Speculation (FinishReason TokenId)
open Utf8 (decode)
open Effect

structure TokenDecoderBackend (δ D : Type) where
  decodeToken : TokenId → Bool → Effect.Call δ D (List UInt8)
  finish : Effect.Call δ D (List UInt8)

structure RawToken where
  tokenId : TokenId
  bytes : List UInt8
  structural : Bool
  structuralSpelling : Option String

structure RawTokenDecoder (δ : Type) where
  backend : δ
  structuralTokenIds : List TokenId
  structuralTokenSpellings : List (TokenId × String)

namespace RawTokenDecoder

variable {δ D : Type}

def withStructuralTokens (backend : δ) (structuralTokens : List (TokenId × String)) :
    RawTokenDecoder δ where
  backend := backend
  structuralTokenIds := structuralTokens.map Prod.fst
  structuralTokenSpellings := structuralTokens

variable (tokens : TokenDecoderBackend δ D)

/-- Explicit structural spellings are delivered through `structural`, not as decoded text. -/
def push (tokenId : TokenId) :
    Effect.Call (RawTokenDecoder δ) D RawToken := fun decoder =>
  let structural := decoder.structuralTokenIds.contains tokenId
  let structuralSpelling := decoder.structuralTokenSpellings.lookup tokenId
  let (decoded, backend) := tokens.decodeToken tokenId structural decoder.backend
  (decoded.map fun bytes =>
    { tokenId := tokenId
      bytes := if structuralSpelling.isSome then [] else bytes
      structural := structural
      structuralSpelling := structuralSpelling }, { decoder with backend := backend })

def finish : Effect.Call (RawTokenDecoder δ) D (List UInt8) :=
  fun decoder =>
    let (trailing, backend) := tokens.finish decoder.backend
    (trailing, { decoder with backend := backend })

end RawTokenDecoder

inductive Utf8BufferError where
  | invalid (validUpTo : Nat)
  | incomplete
  deriving DecidableEq, Repr

def Utf8BufferError.message : Utf8BufferError → String
  | invalid validUpTo => s!"invalid UTF-8 after byte {validUpTo}"
  | incomplete => "incomplete UTF-8 at end of stream"

def validText (bytes : List UInt8) : List Char × List UInt8 :=
  ((List.range (bytes.length + 1)).reverse.findSome? fun length =>
    (decode (bytes.take length)).map (·, bytes.drop length)).getD ([], bytes)

def secondByteAllowed (first second : UInt8) : Bool :=
  if first = 0xe0 then 0xa0 ≤ second && second ≤ 0xbf
  else if first = 0xed then 0x80 ≤ second && second ≤ 0x9f
  else if first = 0xf0 then 0x90 ≤ second && second ≤ 0xbf
  else if first = 0xf4 then 0x80 ≤ second && second ≤ 0x8f
  else 0x80 ≤ second && second ≤ 0xbf

/-- Bytes that begin a character and end before it does: `error_len()` is `None`. -/
def beginsCharacter : List UInt8 → Bool
  | [first] => 0xc2 ≤ first && first ≤ 0xf4
  | [first, second] => 0xe0 ≤ first && first ≤ 0xf4 && secondByteAllowed first second
  | [first, second, third] =>
    0xf0 ≤ first && first ≤ 0xf4 && secondByteAllowed first second && 0x80 ≤ third && third ≤ 0xbf
  | _ => false

/-- Buffers byte-fallback pieces until a complete UTF-8 prefix is available. -/
structure Utf8Buffer where
  pending : List UInt8
  deriving DecidableEq, Repr

namespace Utf8Buffer

def push (bytes : List UInt8) : Effect.Call Utf8Buffer Utf8BufferError String := fun buffer =>
  let pending := buffer.pending ++ bytes
  let (text, rest) := validText pending
  if rest.isEmpty || beginsCharacter rest then
    (.ok (String.ofList text), ⟨rest⟩)
  else
    (.error (.invalid (pending.length - rest.length)), ⟨pending⟩)

def finish (buffer : Utf8Buffer) : Except Utf8BufferError Unit :=
  if buffer.pending.isEmpty then .ok () else .error .incomplete

end Utf8Buffer

inductive CommittedTokenPipelineError (D : Type) where
  | decoder (cause : D)
  | semantic (message : String)
  deriving DecidableEq, Repr

structure CommittedTokenPipeline (δ π φ : Type) where
  decoder : RawTokenDecoder δ
  utf8 : Utf8Buffer
  parser : SemanticStream π φ

abbrev PipelineM (δ π φ D : Type) :=
  Effect (CommittedTokenPipeline δ π φ) (CommittedTokenPipelineError D)

namespace CommittedTokenPipeline

variable {δ π φ D α : Type}

def new (decoder : RawTokenDecoder δ) (parser : SemanticStream π φ) :
    CommittedTokenPipeline δ π φ where
  decoder := decoder
  utf8 := ⟨[]⟩
  parser := parser

variable (call : Effect.Call (RawTokenDecoder δ) D α)

def decoding : PipelineM δ π φ D α :=
  Effect.call .decoder decoder (fun _ decoder pipeline => { pipeline with decoder := decoder }) call

def assemble (bytes : List UInt8) : PipelineM δ π φ D String :=
  Effect.call (.semantic ∘ Utf8BufferError.message) utf8
    (fun _ utf8 pipeline => { pipeline with utf8 := utf8 }) (Utf8Buffer.push bytes)

/-- `std::mem::take(&mut self.utf8).finish()` -/
def finishText : PipelineM δ π φ D Unit :=
  Effect.call (.semantic ∘ Utf8BufferError.message) utf8
    (fun _ utf8 pipeline => { pipeline with utf8 := utf8 }) fun buffer => (buffer.finish, ⟨[]⟩)

def parsing (m : StreamM π φ α) : PipelineM δ π φ D α :=
  Effect.on .semantic parser (fun parser pipeline => { pipeline with parser := parser }) m

section

variable (tokens : TokenDecoderBackend δ D) (protocol : ProtocolParser π φ)

def acceptStructural (raw : RawToken) (matched : Bool) : PipelineM δ π φ D Bool :=
  match raw.structural, raw.structuralSpelling with
  | true, some spelling => parsing (SemanticStream.structural protocol raw.tokenId spelling)
  | _, _ => pure matched

def accept (tokenId : TokenId) : PipelineM δ π φ D Bool := do
  let raw ← decoding (RawTokenDecoder.push tokens tokenId)
  let text ← assemble raw.bytes
  let matched ← parsing (SemanticStream.push protocol text)
  acceptStructural protocol raw matched

/-- Finalizes decoding and parsing. Whether the trailing text completed a stop is not looked at. -/
def finish (reason : FinishReason) : PipelineM δ π φ D Unit := do
  let trailing ← decoding (RawTokenDecoder.finish tokens)
  let text ← assemble trailing
  let _ ← parsing (SemanticStream.push protocol text)
  finishText
  parsing (SemanticStream.finish protocol reason)

/-- Whether the text that `finish` flushes completes a stop of a stream that has not ended. -/
def flushStops (pipeline : CommittedTokenPipeline δ π φ) : Bool :=
  !pipeline.parser.finished &&
    match (RawTokenDecoder.finish tokens pipeline.decoder).1 with
    | .ok trailing =>
      match (Utf8Buffer.push trailing pipeline.utf8).1 with
      | .ok text => pipeline.parser.stops.completes text
      | .error _ => false
    | .error _ => false

end

def cancel (pipeline : CommittedTokenPipeline δ π φ) : CommittedTokenPipeline δ π φ :=
  { pipeline with parser := pipeline.parser.cancel }

open SemanticStream (Running Continues)

variable {tokens : TokenDecoderBackend δ D} {protocol : ProtocolParser π φ}
  {pipeline : CommittedTokenPipeline δ π φ}

theorem yields_decoding :
    (decoding call).Yields pipeline (fun value after => (call pipeline.decoder).1 = .ok value ∧
        after.utf8 = pipeline.utf8 ∧ after.parser = pipeline.parser) Reported := by
  unfold Yields decoding
  rw [outcome_call]
  cases hr : (call pipeline.decoder).1 with
  | ok value => exact ⟨rfl, rfl, rfl⟩
  | error cause => exact ⟨_, rfl⟩

theorem yields_assemble (bytes : List UInt8) :
    (assemble bytes : PipelineM δ π φ D String).Yields pipeline
      (fun text after => (Utf8Buffer.push bytes pipeline.utf8).1 = .ok text ∧
        after.parser = pipeline.parser) Reported := by
  unfold Yields assemble
  rw [outcome_call]
  cases hr : (Utf8Buffer.push bytes pipeline.utf8).1 with
  | ok text => exact ⟨rfl, rfl⟩
  | error cause => exact ⟨_, rfl⟩

theorem yields_finishText : (finishText : PipelineM δ π φ D Unit).Yields pipeline
      (fun _ after => after.parser = pipeline.parser) Reported := by
  unfold Yields finishText
  rw [outcome_call]
  cases pipeline.utf8.finish with
  | ok value => rfl
  | error cause => exact ⟨_, rfl⟩

theorem yields_parsing {m : StreamM π φ α} {holds : α → SemanticStream π φ → Prop}
    (hy : m.Yields pipeline.parser holds Reported) :
    (parsing m : PipelineM δ π φ D α).Yields pipeline
      (fun value after => holds value after.parser) Reported := by
  unfold Yields parsing at *
  rw [outcome_on]
  rcases ran : m.outcome pipeline.parser with ⟨(cause | message) | value, stream⟩
  · exact ⟨_, rfl⟩
  · rw [ran] at hy
    obtain ⟨cause, ho⟩ := hy
    cases ho
  · rw [ran] at hy
    exact hy

theorem yields_accept (tokenId : TokenId) (hr : pipeline.parser.Running) :
    (accept tokens protocol tokenId).Yields pipeline
      (fun matched after => Continues .stopSequence matched pipeline.parser after.parser)
      Reported := by
  refine (yields_decoding _).andThen ?_
  rintro raw decoded ⟨-, -, hsa⟩
  refine (yields_assemble _).andThen ?_
  rintro text assembled ⟨-, hs⟩
  rw [← hs.trans hsa] at hr ⊢
  refine (yields_parsing (SemanticStream.yields_push text hr)).andThen ?_
  rintro matched middle ⟨-, hp⟩
  unfold acceptStructural
  split
  · cases matched with
    | false =>
      refine (yields_parsing (SemanticStream.yields_structural _ _ hp.running)).mono ?_
        fun _ _ => id
      exact fun _ _ hh => hp.trans hh
    | true =>
      -- The text has already ended the stream, which ignores the structural token.
      unfold Yields parsing
      rw [outcome_on, SemanticStream.outcome_structural_finished _ _ hp.finished]
      exact hp
  · exact yields_pure _ |>.mpr hp

/-- What `finish` does before it closes the stream: the flushed text is pushed. -/
theorem flushStops_eq {trailing : List UInt8} {text : String} (hr : pipeline.parser.Running)
    (hd : (RawTokenDecoder.finish tokens pipeline.decoder).1 = .ok trailing)
    (ha : (Utf8Buffer.push trailing pipeline.utf8).1 = .ok text) :
    pipeline.flushStops tokens = pipeline.parser.stops.completes text := by
  simp only [flushStops, hr.unfinished, Bool.not_false, Bool.true_and, hd, ha]

theorem yields_finish (reason : FinishReason) (hr : pipeline.parser.Running) :
    (finish tokens protocol reason).Yields pipeline (fun _ after =>
        Continues (if pipeline.flushStops tokens then .stopSequence else reason) true
          pipeline.parser after.parser) Reported := by
  refine (yields_decoding _).andThen ?_
  rintro trailing decoded ⟨hg, hsr, hsa⟩
  refine (yields_assemble _).andThen ?_
  rintro text assembled ⟨hf, hs⟩
  rw [hsr] at hf
  rw [flushStops_eq hr hg hf]
  rw [← hs.trans hsa] at hr ⊢
  refine (yields_parsing (SemanticStream.yields_push text hr)).andThen ?_
  rintro matched pushed ⟨hco, hc⟩
  refine yields_finishText.andThen ?_
  intro _ emptied hse
  rw [← hco]
  rw [← hse] at hc
  cases matched with
  | false =>
    refine (yields_parsing (SemanticStream.yields_finish reason hc.running)).mono ?_ fun _ _ => id
    exact fun _ _ hcl => hc.trans hcl
  | true =>
    unfold Yields parsing
    rw [outcome_on, SemanticStream.outcome_finish_finished _ hc.finished]
    exact hc

theorem yields_finish_finished (reason : FinishReason) (hf : pipeline.parser.finished = true) :
    (finish tokens protocol reason).Yields pipeline
      (fun _ after => after.parser = pipeline.parser) Reported := by
  have hi : ∀ text, (SemanticStream.push protocol text).Yields pipeline.parser
      (fun _ after => after = pipeline.parser) Reported := by
    intro text
    unfold Yields
    rw [SemanticStream.outcome_push_finished text hf]
  have hc : (SemanticStream.finish protocol reason).Yields pipeline.parser
      (fun _ after => after = pipeline.parser) Reported := by
    unfold Yields
    rw [SemanticStream.outcome_finish_finished reason hf]
  refine (yields_decoding _).andThen ?_
  rintro trailing decoded ⟨-, -, hsa⟩
  refine (yields_assemble _).andThen ?_
  rintro text assembled ⟨-, hs⟩
  rw [← hs.trans hsa] at hi hc ⊢
  refine (yields_parsing (hi text)).andThen ?_
  intro _ pushed hs2
  refine yields_finishText.andThen ?_
  intro _ emptied hsd
  rw [← hsd.trans hs2] at hc ⊢
  exact yields_parsing hc

end CommittedTokenPipeline

end Eredu.Streaming
