import Eredu.Streaming.TokenPipeline

/-!
# The committed generation cursor

A cursor advances a generation by one committed prediction a step: it asks the
source for a token, sends it through the pipeline, delivers the events, commits the
token and ends the generation when a terminal condition holds. The source, the
callback that receives the events and whoever else holds the cancellation token
share a host state that the cursor does not see, and each of them may ask for
cancellation at any time: the flag is looked at through `poll`, and once it was seen
raised it stays raised.

The log records what the outside observes, in order. `MayFollow` says what may come
after what, and `Orderly` is the invariant of a whole run.
-/

namespace Eredu.Streaming

open Effect
open Speculation (FinishReason GenerationError GenerationSequence TokenId TokenTerminalSignals)

/-- Physical progress stays outside committed decoding and termination. -/
inductive SourceAdvancement where
  | progress
  | token (tokenId : TokenId)
  | finished
  deriving DecidableEq, Repr

/-- A source of sampled, grammar-committed token ids. `finishStep succeeded cancelled` carries the
local outcome through the session of the source and answers whether to go on. -/
structure CommittedTokenSource (ω S K : Type) where
  advance : Effect.Call ω S SourceAdvancement
  grammarIsComplete : Effect.Call ω S Bool
  finishStep : Bool → Bool → Effect.Call ω S Bool
  deliveryFailure : ω → Option K

inductive CommittedGenerationError (S D K : Type) where
  | source (cause : S)
  | pipeline (cause : CommittedTokenPipelineError D)
  | lifecycle (cause : GenerationError)
  | delivery (cause : K)
  | missingTerminalToken

variable (δ π φ ω S D K : Type)

/-- Everything a generation runs with: its decoder, its protocol, its source, the callback and the
other holders of the cancellation token. -/
structure Surroundings where
  decoder : TokenDecoderBackend δ D
  protocol : ProtocolParser π φ
  source : CommittedTokenSource ω S K
  emit : SemanticEvent φ → ω → ω
  poll : ω → Bool × ω
  cancel : ω → ω

/-- What the outside sees of a generation. `finishing` tells whether the text flushed at the end
completes a stop. -/
inductive Observation (φ : Type) where
  | requested
  | delivered (event : SemanticEvent φ)
  | cancellation
  | finishing (stops : Bool)
  | failed
  deriving DecidableEq, Repr

structure CommittedGenerationCursor where
  sequence : GenerationSequence
  finishReason : Option FinishReason
  failed : Bool
  deriving DecidableEq

def CommittedGenerationCursor.new (eosTokenIds : List TokenId) (maxTokens : ℕ+) :
    CommittedGenerationCursor where
  sequence := GenerationSequence.new maxTokens eosTokenIds
  finishReason := none
  failed := false

/-- A cursor with the pipeline it drives, the host and the cancellation flag. -/
structure Generation (δ π φ ω : Type) where
  cursor : CommittedGenerationCursor
  pipeline : CommittedTokenPipeline δ π φ
  host : ω
  cancelled : Bool
  log : List (Observation φ)

abbrev GenerationM :=
  Effect (Generation δ π φ ω) (CommittedGenerationError S D K)

namespace Generation

variable {δ π φ ω S D K α : Type}

section

variable (surroundings : Surroundings δ π φ ω S D K)

def new (eosTokenIds : List TokenId) (maxTokens : ℕ+) (decoder : RawTokenDecoder δ)
    (parser : SemanticStream π φ) (host : ω) (cancelled : Bool) : Generation δ π φ ω where
  cursor := .new eosTokenIds maxTokens
  pipeline := .new decoder parser
  host := host
  cancelled := cancelled
  log := []

def note (entry : Observation φ) (generation : Generation δ π φ ω) : Generation δ π φ ω :=
  { generation with log := generation.log ++ [entry] }

/-- A call of the source. Its result is returned as a value. -/
def asking (call : Effect.Call ω S α) : GenerationM δ π φ ω S D K (Except S α) :=
  apply fun generation =>
    ((call generation.host).1, { generation with host := (call generation.host).2 })

def isCancelled : GenerationM δ π φ ω S D K Bool :=
  apply fun generation =>
    if generation.cancelled then (true, generation.note .cancellation)
    else
      let (raised, host) := surroundings.poll generation.host
      let generation := { generation with host := host, cancelled := raised }
      (raised, if raised then generation.note .cancellation else generation)

/-- `cancellation.cancel()`, on the word of the source. -/
def cancelUnless (ready : Bool) : GenerationM δ π φ ω S D K Unit :=
  modify fun generation =>
    if ready then generation
    else { generation.note .cancellation with
      host := surroundings.cancel generation.host
      cancelled := true }

def observeCancellation : GenerationM δ π φ ω S D K Bool := do
  if ← isCancelled surroundings then
    apply fun generation =>
      let (cancelled, sequence) := generation.cursor.sequence.cancel
      (cancelled, { generation with cursor.sequence := sequence })
  else
    return false

def deliver (generation : Generation δ π φ ω) (event : SemanticEvent φ) : Generation δ π φ ω :=
  { generation.note (.delivered event) with host := surroundings.emit event generation.host }

def takeEvents : GenerationM δ π φ ω S D K (List (SemanticEvent φ)) :=
  apply fun generation =>
    (generation.pipeline.parser.events, { generation with pipeline.parser.events := [] })

def drainInto : GenerationM δ π φ ω S D K Unit := do
  let events ← takeEvents
  modify fun generation => events.foldl (deliver surroundings) generation

/-- The loop of `drain_until_cancelled` over the events it has taken. -/
def deliverUntilCancelled : List (SemanticEvent φ) → GenerationM δ π φ ω S D K Bool
  | [] => isCancelled surroundings
  | event :: events => do
    modify fun generation => deliver surroundings generation event
    if ← isCancelled surroundings then
      return true
    else
      deliverUntilCancelled events

def drainUntilCancelled : GenerationM δ π φ ω S D K Bool := do
  deliverUntilCancelled surroundings (← takeEvents)

def piping (m : PipelineM δ π φ D α) : GenerationM δ π φ ω S D K α :=
  on .pipeline pipeline (fun pipeline generation => { generation with pipeline := pipeline }) m

/-- The events of a token, and whether cancellation was asked for meanwhile. A decoded stop is
terminal before the callback observes its events. -/
def deliverToken (matched : Bool) : GenerationM δ π φ ω S D K Bool :=
  if matched then do
    drainInto surroundings
    isCancelled surroundings
  else
    drainUntilCancelled surroundings

variable (tokenId : TokenId)

def pushCancellable : GenerationM δ π φ ω S D K (Bool × Bool) := do
  let matched ← piping (CommittedTokenPipeline.accept surroundings.decoder surroundings.protocol
    tokenId)
  let cancelled ← deliverToken surroundings matched
  return (matched, cancelled)

def finish (reason : FinishReason) : GenerationM δ π φ ω S D K Unit := do
  modify fun generation =>
    generation.note (.finishing (generation.pipeline.flushStops surroundings.decoder))
  piping (CommittedTokenPipeline.finish surroundings.decoder surroundings.protocol reason)
  drainInto surroundings

/-- `pipeline.cancel(emit)`, after which the cursor reports the cancellation. -/
def finishCancelled : GenerationM δ π φ ω S D K Unit := do
  modify fun generation => { generation with pipeline := generation.pipeline.cancel }
  drainInto surroundings
  modify fun generation => { generation with cursor.finishReason := some .cancelled }

def commit (signals : TokenTerminalSignals) : GenerationM δ π φ ω S D K (Option FinishReason) := do
  let generation ← get
  match generation.cursor.sequence.commit tokenId signals with
  | .ok (receipt, sequence) =>
    set { generation with cursor.sequence := sequence }
    return receipt.finishReason
  | .error cause => fail (.lifecycle cause)

/-- The end of a generation whose committed token was terminal. -/
def conclude : Option FinishReason → GenerationM δ π φ ω S D K Unit
  | none => pure ()
  | some reason => do
    finish surroundings reason
    modify fun generation => { generation with cursor.finishReason := some reason }

def grammarComplete (stopMatched : Bool) : GenerationM δ π φ ω S D K Bool :=
  if stopMatched then pure false
  else do
    match ← asking surroundings.source.grammarIsComplete with
    | .ok complete => return complete
    | .error cause => fail (.source cause)

/-- A token whose delivery the callback cancelled is committed and nothing after it is delivered,
even when it also exhausted the budget. -/
def commitCancelled : GenerationM δ π φ ω S D K Unit := do
  let _ ← commit tokenId ⟨false, false⟩
  modify fun generation =>
    { generation with cursor.sequence := generation.cursor.sequence.cancel.2 }
  finishCancelled surroundings

def commitDelivered (stopMatched : Bool) : GenerationM δ π φ ω S D K Unit := do
  let complete ← grammarComplete surroundings stopMatched
  let reason ← commit tokenId ⟨stopMatched, complete⟩
  conclude surroundings reason

def acceptToken : GenerationM δ π φ ω S D K Unit := do
  let (stopMatched, cancelled) ← pushCancellable surroundings tokenId
  if cancelled && !stopMatched then
    commitCancelled surroundings tokenId
  else
    commitDelivered surroundings tokenId stopMatched

def exhausted : GenerationM δ π φ ω S D K Unit := do
  if ← observeCancellation surroundings then
    finishCancelled surroundings
  else
    fail .missingTerminalToken

def advance : GenerationM δ π φ ω S D K Unit := do
  modify (note .requested)
  match ← asking surroundings.source.advance with
  | .error cause => fail (.source cause)
  | .ok .progress => return
  | .ok (.token tokenId) => acceptToken surroundings tokenId
  | .ok .finished => exhausted surroundings

def stepInner : GenerationM δ π φ ω S D K Unit := do
  if ← observeCancellation surroundings then
    finishCancelled surroundings
  else
    advance surroundings

variable (result : Except (CommittedGenerationError S D K) Unit)

/-- The local result with a delivery failure the callback left behind. -/
def delivered : GenerationM δ π φ ω S D K (Except (CommittedGenerationError S D K) Unit) := do
  let generation ← get
  return result.bind fun _ =>
    match surroundings.source.deliveryFailure generation.host with
    | none => .ok ()
    | some cause => .error (.delivery cause)

/-- `source.finish_step(local, cancelled, …)`: the source learns of the local result, and a local
cause remains what the step reports. -/
def finishStep (cancelled : Bool) : GenerationM δ π φ ω S D K Bool := do
  let settled ← asking (surroundings.source.finishStep result.isOk cancelled)
  match result, settled with
  | .error cause, _ => fail cause
  | .ok _, .error cause => fail (.source cause)
  | .ok _, .ok ready => return ready

/-- A generation that a peer cancelled ends now, unless it has ended. -/
def finishUnended : GenerationM δ π φ ω S D K Unit := do
  let generation ← get
  if generation.cursor.finishReason.isNone then
    modify fun generation =>
      { generation with cursor.sequence := generation.cursor.sequence.cancel.2 }
    finishCancelled surroundings

/-- A peer cancellation can itself publish a terminal callback. All peers enter this final
disposition, including failures. -/
def finishPeers (ready : Bool) : GenerationM δ π φ ω S D K Unit :=
  if ready then pure ()
  else do
    cancelUnless surroundings ready
    finishUnended surroundings
    let failure ← delivered surroundings (.ok ())
    let _ ← finishStep surroundings failure true

/-- The body of a step, whose error fences the cursor. -/
def stepBody : GenerationM δ π φ ω S D K Unit := do
  let failure ← delivered surroundings (.ok ())
  let ready ← finishStep surroundings failure (← isCancelled surroundings)
  cancelUnless surroundings ready
  let result ← attempt (stepInner surroundings)
  let result ← delivered surroundings result
  let ready ← finishStep surroundings result (← isCancelled surroundings)
  finishPeers surroundings ready

def step : GenerationM δ π φ ω S D K Unit := do
  let generation ← get
  if generation.cursor.failed then
    fail (.lifecycle .failedGeneration)
  else if generation.cursor.finishReason.isSome then
    fail (.lifecycle .alreadyFinished)
  else
    match ← attempt (stepBody surroundings) with
    | .ok _ => return
    | .error cause =>
      modify fun generation => { generation with cursor.failed := true }
      fail cause

def next (generation : Generation δ π φ ω) : Generation δ π φ ω :=
  match (step surroundings).outcome generation with
  | (.ok _, after) => after
  | (.error _, after) => after.note .failed

end

end Generation

end Eredu.Streaming
