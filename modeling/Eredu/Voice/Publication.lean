import Eredu.Voice.PublicationQueue

/-!
# Publication with the model step

The publication state owns the neural state, the policy of the conversation, the audio
input and the queue of committed output. An invocation holds credit of the queue, an
exclusive transition of the conversation and, where it hears something, an input permit.
All three go with its branch, and come back when the branch is dropped.

What the code calls and does not define here is in `Outside`: the neural transaction and
the policies of turns, tools and text. Destructors are written out where they run.
-/

namespace Eredu.Voice

open Effect

structure PcmInputStatus where
  pcmPrecision : PcmPrecision
  queueCapacitySamples : Nat
  queuedSamples : Nat
  frames : Nat
  finished : Bool
  remainingContinuationFrames : Nat
  drained : Bool

structure VoiceChatAdvance (ρ : Type) where
  at_ : Nat
  toolAudio : ρ

inductive VoiceChatBlocked where
  | needsPrefill
  | needsInput
  | waitingForTool
  | waitingForTime
  | finished
  deriving DecidableEq, Repr

inductive VoiceChatWorkKind (ρ : Type) where
  | prefill (backboneTokens : Nat)
  | live
  | perceptionOnly
  | replayAudio
  | tool (audio : AudioSource) (decisions : ρ)
  | reminder (receipt : ρ)
  | drain

def VoiceChatWorkKind.step {ρ : Type} : VoiceChatWorkKind ρ → Step
  | .prefill backboneTokens => .prefill backboneTokens
  | .live => .liveAudio
  | .perceptionOnly => .perceptionOnly
  | .replayAudio => .replayAudio
  | .tool audio _ => .tool audio
  | .reminder _ => .reminder
  | .drain => .drain

/-- The part of the conversation that is not about admission: how turns, tools and text move on.
The neural transaction is here as well. `κ` is the committed policy, `S` the neural state and `B` a
branch of it. -/
structure Outside (S B κ α ρ ε : Type) where
  format : SampleFormat α
  branch : S → Except ε B
  adopt : S → B → S
  resetInterruptionFeedback : B → B
  pcmInputStatus : B → PcmInputStatus
  submitPcm : B → List α → Nat → Except ε B
  finishPcm : B → PcmFinishPolicy → Except ε B
  serialized : ρ → Option Nat
  /-- The successor policy of a prefill with its turn admission. -/
  planPrefill : κ → Nat → Nat → Except ε (κ × ρ)
  /-- The next invocation for fresh or finished input. -/
  planNext : κ → VoiceChatAdvance ρ → Bool → Bool →
    Except ε (Except VoiceChatBlocked (VoiceChatWorkKind ρ × κ × ρ))
  admission : κ → Step → Except ε ρ
  spoken : ρ → Nat
  commitReminder : κ → ρ → Nat → Except ε (κ × Option ρ)
  /-- What a frame does to turns and tools. -/
  observe : κ → ρ → OwnedHostOutput α ρ →
    Except ε (κ × Option VoiceChatTurnEvent × Option (List (SemanticEvent ρ)))
  /-- The text of a frame, with room for so many bytes of transcription. -/
  decode : κ → Nat → OwnedHostOutput α ρ → Except ε (κ × Option String × Option String)
  settle : κ → OwnedHostOutput α ρ → Option Nat → κ

/-- `VoiceChatConversationTransition`: the exclusive right to change the policy. -/
structure Transition (κ ρ : Type) where
  candidate : κ
  admission : ρ
  reminder : Option (ρ × Nat)
  capacity : VoiceChatPublicationCapacity

structure Work (κ α ρ : Type) where
  kind : VoiceChatWorkKind ρ
  transition : Transition κ ρ
  output : VoiceChatPublicationCapacity
  input : Option (VoiceChatInputPermit α)

/-- Where the transition of a branch is: with the completion gate of the running invocation, or with
the output that the gate has staged. -/
inductive Slot (κ α ρ : Type) where
  | empty
  | admitted (transition : Transition κ ρ)
  | staged (transition : Transition κ ρ) (publication : VoiceChatConversationOutput α ρ)

structure Branch (B κ α ρ : Type) where
  neural : B
  identity : Nat
  predecessor : Nat
  inputPermit : Option (VoiceChatInputPermit α)
  reservation : Option VoiceChatPublicationCapacity
  slot : Slot κ α ρ

structure PublicationState (S κ α ρ : Type) where
  identity : Nat
  neural : S
  conversation : κ
  busy : Bool
  input : Option (Ingress α)
  epoch : Nat
  queue : Queue α ρ

variable {S B κ α ρ ε : Type}

abbrev Publishing (S κ α ρ ε : Type) : Type → Type :=
  Effect (PublicationState S κ α ρ) (VoiceChatPublicationError ε)

variable (capacity : VoiceChatPublicationCapacity)

namespace Publishing

def reserve : Publishing S κ α ρ ε Unit := do
  let state ← get
  match state.queue.reserve capacity with
  | none => abort "attempt to subtract with overflow"
  | some (.error cause) => fail cause
  | some (.ok queue) => set { state with queue }

def release : Publishing S κ α ρ ε Unit := do
  let state ← get
  match state.queue.release capacity with
  | none => abort "attempt to subtract with overflow"
  | some queue => set { state with queue }

def reserveInput [Zero α] : Publishing S κ α ρ ε (VoiceChatInputPermit α) := do
  let state ← get
  match state.input with
  | none => fail (.input .unavailable)
  | some ingress =>
    match ingress.reserve with
    | .error cause => fail (.input cause)
    | .ok (ingress, permit) =>
      set { state with input := some ingress }
      return permit

def dropInput : Publishing S κ α ρ ε Unit :=
  modify fun state => { state with input := state.input.map VoiceChatInputPermit.drop }

def dropTransition : Publishing S κ α ρ ε Unit :=
  modify fun state => { state with busy := false }

def dropInput? (permit : Option (VoiceChatInputPermit α)) : Publishing S κ α ρ ε Unit :=
  match permit with
  | none => pure ()
  | some _ => dropInput

def release? (reservation : Option VoiceChatPublicationCapacity) : Publishing S κ α ρ ε Unit :=
  match reservation with
  | none => pure ()
  | some capacity => release capacity

def dropWork (work : Work κ α ρ) : Publishing S κ α ρ ε Unit := do
  dropTransition
  release work.output
  dropInput? work.input

/-- A gate that was not dropped with the branch keeps its transition. -/
def dropSlot (slot : Slot κ α ρ) : Publishing S κ α ρ ε Unit :=
  match slot with
  | .staged _ _ => dropTransition
  | .admitted _ | .empty => pure ()

def dropBranch (branch : Branch B κ α ρ) : Publishing S κ α ρ ε Unit := do
  dropInput? branch.inputPermit
  release? branch.reservation
  dropSlot branch.slot

def claim (plan : κ → Except ε (Transition κ ρ)) : Publishing S κ α ρ ε (Transition κ ρ) := do
  let state ← get
  if state.busy then fail (.conversation .busy)
  else
    match plan state.conversation with
    | .error cause => fail (.conversation (.policy cause))
    | .ok transition =>
      set { state with busy := true }
      return transition

variable (outside : Outside S B κ α ρ ε)

def preparePrefill (backboneTokens at_ : Nat) (capacity : VoiceChatPublicationCapacity) :
    Publishing S κ α ρ ε (Work κ α ρ) := do
  reserve capacity
  match ← attempt (claim fun policy => do
    let (candidate, admission) ← outside.planPrefill policy backboneTokens at_
    return { candidate, admission, reminder := none, capacity }) with
  | .error cause =>
    release capacity
    fail cause
  | .ok transition =>
    return { kind := .prefill backboneTokens, transition, output := capacity, input := none }

/-- Missing input and drained input leave the choice to the conversation. -/
def reserveInput? [Zero α] :
    Publishing S κ α ρ ε (Except (VoiceChatPublicationError ε)
      (Option (VoiceChatInputPermit α))) := do
  match ← attempt reserveInput with
  | .ok permit => return .ok (some permit)
  | .error (.input .needsInput) | .error (.input .drained) => return .ok none
  | .error cause => return .error cause

def selectNext (advance : VoiceChatAdvance ρ) (capacity : VoiceChatPublicationCapacity)
    (permit : Option (VoiceChatInputPermit α)) :
    Publishing S κ α ρ ε (Except VoiceChatBlocked (VoiceChatWorkKind ρ × Transition κ ρ)) := do
  let state ← get
  let fresh := permit.any fun permit => permit.frame.isSome
  let finished := (permit.any fun permit => permit.frame.isNone) ||
    state.input.any fun ingress => ingress.finishCommitted
  if state.busy then fail (.conversation .busy)
  else
    match outside.planNext state.conversation advance fresh finished with
    | .error cause => fail (.conversation (.policy cause))
    | .ok (.error blocked) => return .error blocked
    | .ok (.ok (kind, candidate, admission)) =>
      let reminder :=
        match kind with
        | .reminder receipt => some (receipt, advance.at_)
        | _ => none
      set { state with busy := true }
      return .ok (kind, { candidate, admission, reminder, capacity })

def retainsInput : Step → Bool
  | .liveAudio | .perceptionOnly | .tool .fresh | .drain => true
  | _ => false

/-- The permit goes with work that hears something. -/
def keepInput (step : Step) (permit : Option (VoiceChatInputPermit α)) :
    Publishing S κ α ρ ε (Option (VoiceChatInputPermit α)) :=
  if retainsInput step then return permit
  else do
    dropInput? permit
    return none

def prepareNext [Zero α] (advance : VoiceChatAdvance ρ) (capacity : VoiceChatPublicationCapacity) :
    Publishing S κ α ρ ε (Except VoiceChatBlocked (Work κ α ρ)) := do
  reserve capacity
  match ← reserveInput? with
  | .error cause =>
    release capacity
    fail cause
  | .ok permit =>
    match ← attempt (selectNext outside advance capacity permit) with
    | .error cause =>
      dropInput? permit
      release capacity
      fail cause
    | .ok (.error blocked) =>
      dropInput? permit
      release capacity
      return .error blocked
    | .ok (.ok (kind, transition)) =>
      let input ← keepInput kind.step permit
      return .ok { kind, transition, output := capacity, input }

/-- A change of the policy from outside, between invocations. -/
def mutate (change : κ → Except ε κ) (retention : Except ε Unit) : Publishing S κ α ρ ε Unit := do
  let state ← get
  if state.busy then fail (.conversation .busy)
  else
    match change state.conversation with
    | .error cause => fail (.conversation (.policy cause))
    | .ok candidate =>
      match retention with
      | .error cause => fail (.conversation (.snapshot cause))
      | .ok _ => set { state with conversation := candidate }

def branch : Publishing S κ α ρ ε (Branch B κ α ρ) := do
  let state ← get
  match outside.branch state.neural with
  | .error cause => fail (.backend cause)
  | .ok neural =>
    return { neural
             identity := state.identity
             predecessor := state.epoch
             inputPermit := none
             reservation := none
             slot := .empty }

def validateDrain : Publishing S κ α ρ ε Unit := do
  let state ← get
  match state.input with
  | none => fail (.input .unavailable)
  | some ingress =>
    match ingress.validateDrain with
    | .error cause => fail (.input cause)
    | .ok _ => return ()

def admissible (branch : Branch B κ α ρ) : Publishing S κ α ρ ε Unit := do
  let state ← get
  if branch.predecessor ≠ state.epoch then fail (.transaction "stale branch")
  else if branch.reservation.isSome then fail (.transaction "branch already admitted")
  else return ()

def fresh : Step → Bool
  | .liveAudio | .perceptionOnly | .tool .fresh => true
  | _ => false

variable (permit : VoiceChatInputPermit α) (ingress : Ingress α)

/-- The checks of a permit against the input state of the branch. -/
def attributed (step : Step) (neural : B) : Except (VoiceChatPublicationError ε) Unit :=
  let status := outside.pcmInputStatus neural
  if permit.frame.isSome ≠ fresh step ∨ (permit.frame.isNone ∧ step ≠ .drain) then
    .error (.input .attribution)
  else if status.frames ≠ permit.frameIndex ∨ status.queuedSamples ≠ 0 ∨ status.drained ∨
      status.finished ≠ ingress.finishDeclared ∨ (ingress.finishDeclared ∧
        status.remainingContinuationFrames ≠ ingress.queue.continuationFrames) then
    .error (.input .attribution)
  else if status.pcmPrecision ≠ ingress.config.pcmPrecision ∨
      status.queueCapacitySamples < INPUT_FRAME_SAMPLES then
    .error (.input (.configuration "frontend precision or capacity differs"))
  else .ok ()

/-- `VoiceChatInputPermit::stage`: the samples and the finish enter the branch. -/
def stageInput (step : Step) (neural : B) : Except (VoiceChatPublicationError ε) B := do
  attributed outside permit ingress step neural
  let neural ←
    match permit.frame with
    | some frame =>
      if frame.source = .input then
        (outside.submitPcm neural (frame.samples.take frame.validSamples)
          INPUT_SAMPLE_RATE).mapError .inputState
      else .ok neural
    | none => .ok neural
  match permit.declaration with
  | some policy => (outside.finishPcm neural policy).mapError .inputState
  | none => .ok neural

variable (branch : Branch B κ α ρ)

def admitInput (permit : VoiceChatInputPermit α) (step : Step) :
    Publishing S κ α ρ ε (Branch B κ α ρ × Except (VoiceChatPublicationError ε) Unit) := do
  let state ← get
  match state.input with
  | none => abort "live publication branch"
  | some ingress =>
    match stageInput outside permit ingress step branch.neural with
    | .ok neural => return ({ branch with neural, inputPermit := some permit }, .ok ())
    | .error cause =>
      dropInput
      dropTransition
      return ({ branch with slot := .empty }, .error cause)

/-- The permit of the code belongs to this input, as foreign work is refused before. -/
def preparedAdmission (work : Work κ α ρ) : Publishing S κ α ρ ε Unit :=
  if work.input.isNone ∧ work.kind.step = .drain then do
    validateDrain
    admissible branch
  else admissible branch

def admitPrepared (work : Work κ α ρ) :
    Publishing S κ α ρ ε (Branch B κ α ρ × Except (VoiceChatPublicationError ε) Unit) := do
  match ← attempt (preparedAdmission branch work) with
  | .error cause =>
    dropWork work
    return (branch, .error cause)
  | .ok _ =>
    let branch :=
      { branch with reservation := some work.output, slot := .admitted work.transition }
    match work.input with
    | none => return (branch, .ok ())
    | some permit => admitInput outside branch permit work.kind.step

variable (step : Step) (reminder : Option (ρ × Nat))

def plan (capacity : VoiceChatPublicationCapacity) (policy : κ) : Except ε (Transition κ ρ) := do
  let admission ← outside.admission policy step
  match reminder with
  | none => return { candidate := policy, admission, reminder, capacity }
  | some (receipt, at_) =>
    let _ ← outside.commitReminder policy receipt at_
    return { candidate := policy, admission, reminder, capacity }

/-- What `admit` asks of a step that brings no permit and no reminder. -/
def permitted : Publishing S κ α ρ ε Unit := do
  let state ← get
  match state.input with
  | none => return ()
  | some _ =>
    if fresh step then fail (.input .required)
    else if step = .drain then validateDrain
    else return ()

def claimStep (capacity : VoiceChatPublicationCapacity) : Publishing S κ α ρ ε (Transition κ ρ) :=
  if step = .reminder ∧ reminder.isNone then fail (.conversation .reminder)
  else claim (plan outside step reminder capacity)

variable (capacity : VoiceChatPublicationCapacity)

def looseAdmission
    (permit : Option (VoiceChatInputPermit α)) (step : Step) (reminder : Option (ρ × Nat)) :
    Publishing S κ α ρ ε (Transition κ ρ) :=
  if permit.isNone ∧ reminder.isNone then do
    permitted step
    admissible branch
    claimStep outside step reminder capacity
  else do
    admissible branch
    claimStep outside step reminder capacity

def admitStep
    (permit : Option (VoiceChatInputPermit α)) (step : Step) (reminder : Option (ρ × Nat)) :
    Publishing S κ α ρ ε (Branch B κ α ρ × Except (VoiceChatPublicationError ε) Unit) := do
  match ← attempt (looseAdmission outside branch capacity permit step reminder) with
  | .error cause =>
    release capacity
    dropInput? permit
    return (branch, .error cause)
  | .ok transition =>
    let branch := { branch with reservation := some capacity, slot := .admitted transition }
    match permit with
    | none => return (branch, .ok ())
    | some permit => admitInput outside branch permit step

variable (transition : Transition κ ρ) (frame : OwnedHostOutput α ρ) (retention : Except ε Unit)

def successor :
    Except (VoiceChatConversationError ε) (Transition κ ρ × VoiceChatConversationOutput α ρ) := do
  if frame.reminderToken ≠ transition.reminder.map fun reminder => outside.spoken reminder.1 then
    .error .reminder
  else
    validateFrame transition.capacity frame
    let (candidate, turn, tools) ←
      (outside.observe transition.candidate transition.admission frame).mapError .policy
    let _ ← validateTools outside.serialized transition.capacity tools
    let (candidate, agentText, transcription) ←
      (outside.decode candidate (transition.capacity .transcriptionTextBytes) frame).mapError
        .policy
    validateText transition.capacity agentText transcription
    let (candidate, playback) ←
      match transition.reminder with
      | some (receipt, at_) =>
        if turn = some .interrupted then .ok (candidate, none)
        else (outside.commitReminder candidate receipt at_).mapError .policy
      | none => .ok (candidate, none)
    let candidate := outside.settle candidate frame (transition.reminder.map Prod.snd)
    retention.mapError .snapshot
    return ({ transition with candidate }, { frame, turn, tools, playback, agentText, transcription })

/-- `VoiceChatConversationTransition::stage`. A transition that fails is dropped. -/
def stage : Publishing S κ α ρ ε (Slot κ α ρ) :=
  match successor outside transition frame retention with
  | .ok (transition, publication) => return .staged transition publication
  | .error _ => do
    dropTransition
    return .empty

/-- How the parts of a commit that the code does not control turn out. -/
structure Outcomes (ε : Type) where
  queueRetention : Except ε Unit
  neuralGrowth : Except ε Unit
  neuralCommit : Except ε Unit
  neuralDiscard : Except ε Unit

variable (retired : Except ε Unit)

def discardBranch : Publishing S κ α ρ ε Unit := do
  dropBranch branch
  ofResult (retired.mapError .backend)

def refuse (cause : VoiceChatPublicationError ε) : Publishing S κ α ρ ε Unit := do
  discardBranch branch retired
  fail cause

/-- `VoiceChatInputPermit::validate_output`. -/
def validateOutput (output : OwnedHostOutput α ρ) : Except (VoiceChatPublicationError ε) Unit :=
  if output.audioFramesBefore ≠ permit.frameIndex then .error (.input .attribution)
  else
    match permit.frame, output.transcription with
    | some frame, some transcription =>
      if fresh output.step ∧ output.audioFramesAfter = permit.frameIndex + 1 ∧
          transcription.frameIndex = permit.frameIndex ∧
          transcription.startSample = frame.startSample ∧
          transcription.validSamples = frame.validSamples ∧
          transcription.source = frame.source ∧
          transcription.sampleRate = INPUT_SAMPLE_RATE then .ok ()
      else .error (.input .attribution)
    | none, none =>
      if output.step = .drain ∧ output.audioFramesAfter = permit.frameIndex then .ok ()
      else .error (.input .attribution)
    | _, _ => .error (.input .attribution)

def validatePermit (permit : Option (VoiceChatInputPermit α)) (output : OwnedHostOutput α ρ) :
    Except (VoiceChatPublicationError ε) Unit :=
  match permit with
  | some permit => validateOutput permit output
  | none => .ok ()

/-- Everything that can refuse an output before the neural commit. -/
def charge (permit : Option (VoiceChatInputPermit α))
    (publication : VoiceChatConversationOutput α ρ) (outcomes : Outcomes ε) :
    Except (VoiceChatPublicationError ε) VoiceChatPublicationCapacity := do
  validatePermit permit publication.frame
  let charge ← prepare outside.serialized capacity publication outcomes.queueRetention
  outcomes.neuralGrowth.mapError .backend
  return charge

def commitInput (permit : Option (VoiceChatInputPermit α)) : Publishing S κ α ρ ε Unit := do
  let state ← get
  match permit, state.input with
  | none, _ => return ()
  | some _, none => abort "live publication branch"
  | some permit, some ingress =>
    match permit.commit ingress with
    | none => abort "reserved input head"
    | some ingress => set { state with input := some ingress }

variable (publication : VoiceChatConversationOutput α ρ)

def commitQueue (charge : VoiceChatPublicationCapacity) : Publishing S κ α ρ ε Unit := do
  let state ← get
  match state.queue.commit capacity publication charge with
  | none => abort "attempt to subtract with overflow"
  | some queue => set { state with queue }

def adopted (neural : S) (branch : B) (publication : VoiceChatConversationOutput α ρ) : S :=
  outside.adopt neural
    (if publication.turn = some .interrupted then outside.resetInterruptionFeedback branch
    else branch)

def publish (capacity charge : VoiceChatPublicationCapacity) : Publishing S κ α ρ ε Unit := do
  modify fun state =>
    { state with
      neural := adopted outside state.neural branch.neural publication
      epoch := state.epoch + 1 }
  commitInput branch.inputPermit
  modify fun state => { state with conversation := transition.candidate, busy := false }
  commitQueue capacity publication charge

/-- `commit_branch` of the state with this identity. -/
def commitBranch (identity : Nat) (branch : Branch B κ α ρ) (outcomes : Outcomes ε) :
    Publishing S κ α ρ ε Unit := do
  let state ← get
  let refused := refuse branch outcomes.neuralDiscard
  if identity ≠ branch.identity then refused (.transaction "foreign branch")
  else if branch.predecessor ≠ state.epoch then refused (.transaction "stale branch")
  else
    match branch.reservation, branch.slot with
    | some capacity, .staged transition publication =>
      if state.epoch = 2 ^ 64 - 1 then refused (.transaction "publication frontier exhausted")
      else
        match charge outside capacity branch.inputPermit publication outcomes with
        | .error cause => refused cause
        | .ok charge =>
          match outcomes.neuralCommit with
          | .error cause =>
            dropBranch branch
            fail (.backend cause)
          | .ok _ => publish outside branch transition publication capacity charge
    | _, _ => refused (.transaction "branch has no completed host publication")

def popOutput : Publishing S κ α ρ ε (Option (VoiceChatConversationOutput α ρ)) := do
  let state ← get
  match state.queue.pop with
  | none => abort "attempt to subtract with overflow"
  | some (output, queue) =>
    set { state with queue }
    return output

end Publishing

end Eredu.Voice
