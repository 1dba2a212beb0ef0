import Eredu.Foundation.Agreement
import Eredu.Foundation.Effect
import Eredu.Foundation.Word
import Eredu.Voice.Ingress

/-!
# Credit for committed output

Every invocation reserves room for its output before it runs. The reservation becomes a
queued publication when the invocation commits, and is given back otherwise. A queued
publication is charged with what it holds, which may be less than what was reserved.

`Balanced` says what the counters of the queue stand for. Each operation keeps it, and
no subtraction of the code goes below zero.
-/

namespace Eredu.Voice

open List Option Word
open Effect (bind_eq_ok)

/-- What a publication is charged for, in the order in which the code checks it. -/
inductive PayloadKind where
  | speechSamples
  | transcriptionTokens
  | agentTextBytes
  | transcriptionTextBytes
  | audioCodes
  | toolEvents
  | toolBytes
  | diagnostics
  deriving DecidableEq, Repr

namespace PayloadKind

def all : List PayloadKind :=
  [speechSamples, transcriptionTokens, agentTextBytes, transcriptionTextBytes, audioCodes,
    toolEvents, toolBytes, diagnostics]

def label : PayloadKind → String
  | speechSamples => "speech samples"
  | transcriptionTokens => "transcription tokens"
  | agentTextBytes => "agent text bytes"
  | transcriptionTextBytes => "transcription text bytes"
  | audioCodes => "audio codes"
  | toolEvents => "tool events"
  | toolBytes => "tool bytes"
  | diagnostics => "diagnostics"

theorem mem_all (kind : PayloadKind) : kind ∈ all := by
  cases kind <;> decide

instance : Fintype PayloadKind := Fintype.ofList all mem_all

end PayloadKind

abbrev VoiceChatPublicationCapacity := PayloadKind → Nat

variable {capacity : VoiceChatPublicationCapacity}

namespace VoiceChatPublicationCapacity

def add (capacity other : VoiceChatPublicationCapacity) : VoiceChatPublicationCapacity :=
  fun kind => capacity kind + other kind

/-- There is no result where a field of the code would go below zero. -/
def subtract (capacity other : VoiceChatPublicationCapacity) :
    Option VoiceChatPublicationCapacity :=
  if ∀ kind, other kind ≤ capacity kind then some fun kind => capacity kind - other kind else none

theorem subtract_eq_some {other rest : VoiceChatPublicationCapacity} :
    capacity.subtract other = some rest ↔ capacity = rest.add other := by
  unfold subtract add
  by_cases hf : ∀ kind, other kind ≤ capacity kind
  · rw [if_pos hf, some.injEq]
    constructor
    · rintro rfl
      funext kind
      exact (Nat.sub_add_cancel (hf kind)).symm
    · rintro rfl
      funext kind
      exact Nat.add_sub_cancel _ _
  · rw [if_neg hf]
    constructor
    · nofun
    · rintro rfl
      exact absurd (fun kind => Nat.le_add_left _ _) hf

end VoiceChatPublicationCapacity

inductive AudioSource where
  | fresh
  | silence
  | retained
  deriving DecidableEq, Repr

inductive Step where
  | prefill (backboneTokens : Nat)
  | liveAudio
  | perceptionOnly
  | replayAudio
  | tool (audio : AudioSource)
  | reminder
  | drain
  deriving DecidableEq, Repr

structure TranscriptionOutput where
  frameIndex : Nat
  startSample : Nat
  validSamples : Nat
  source : PcmFrameSource
  sampleRate : Nat
  emitted : List Nat
  deriving DecidableEq, Repr

/-- The host's view of an invocation. `other` is what no check reads. -/
structure OwnedHostOutput (α ρ : Type) where
  step : Step
  reminderToken : Option Nat
  audioFramesBefore : Nat
  audioFramesAfter : Nat
  generatedCodes : Option (List Int)
  speech : Option (List α)
  transcription : Option TranscriptionOutput
  diagnostics : List ρ
  other : ρ

inductive VoiceChatTurnEvent where
  | agentStarted
  | userEnded
  | firstTurnFallback
  | agentEnded
  | interrupted
  deriving DecidableEq, Repr

inductive SemanticEvent (ρ : Type) where
  | reasoningDelta (text : String)
  | textDelta (text : String)
  | toolCallStart (index : Nat) (id name : String)
  | toolArgumentsDelta (index : Nat) (jsonFragment : String)
  | toolCallCompleted (index : Nat) (id name : String) (arguments : ρ)
  | toolCallRejected (index : Nat) (id name : String) (arguments : ρ) (error : String)
  | finished (reason : ρ)

structure VoiceChatConversationOutput (α ρ : Type) where
  frame : OwnedHostOutput α ρ
  turn : Option VoiceChatTurnEvent
  tools : Option (List (SemanticEvent ρ))
  playback : Option ρ
  agentText : Option String
  transcription : Option String

inductive VoiceChatConversationError (ε : Type) where
  | busy
  | capacity (name : String)
  | reminder
  | snapshot (failure : ε)
  | policy (failure : ε)

inductive VoiceChatPublicationError (ε : Type) where
  | input (error : VoiceChatInputError)
  | capacity (name : String)
  | conversation (error : VoiceChatConversationError ε)
  | transaction (reason : String)
  | inputState (failure : ε)
  | backend (failure : ε)

variable {α ρ ε : Type}

section Payload

variable (serialized : ρ → Option Nat)

/-- The length of the strings of an event, and of its arguments once they are written out. -/
def SemanticEvent.bytes : SemanticEvent ρ → Option Nat
  | .reasoningDelta text | .textDelta text => some text.utf8ByteSize
  | .toolCallStart _ id name => some (id.utf8ByteSize + name.utf8ByteSize)
  | .toolArgumentsDelta _ jsonFragment => some jsonFragment.utf8ByteSize
  | .toolCallCompleted _ id name arguments =>
    (serialized arguments).map fun bytes => bytes + (id.utf8ByteSize + name.utf8ByteSize)
  | .toolCallRejected _ id name arguments error =>
    (serialized arguments).map fun bytes =>
      bytes + (id.utf8ByteSize + (name.utf8ByteSize + error.utf8ByteSize))
  | .finished _ => some 0

def toolBytes (events : List (SemanticEvent ρ)) : Nat :=
  (events.map fun event => (event.bytes serialized).getD 0).sum

/-- The exact amount of each kind in a publication. -/
def VoiceChatConversationOutput.payload (output : VoiceChatConversationOutput α ρ) :
    VoiceChatPublicationCapacity
  | .speechSamples => output.frame.speech.elim 0 length
  | .transcriptionTokens => output.frame.transcription.elim 0 fun frame => frame.emitted.length
  | .agentTextBytes => output.agentText.elim 0 String.utf8ByteSize
  | .transcriptionTextBytes => output.transcription.elim 0 String.utf8ByteSize
  | .audioCodes => output.frame.generatedCodes.elim 0 length
  | .toolEvents => output.tools.elim 0 length
  | .toolBytes => output.tools.elim 0 (toolBytes serialized)
  | .diagnostics => output.frame.diagnostics.length

end Payload

def firstOver (sizes : List (Nat × PayloadKind)) (capacity : VoiceChatPublicationCapacity) :
    Except (VoiceChatConversationError ε) Unit :=
  match sizes.find? fun size => capacity size.2 < size.1 with
  | some size => .error (.capacity size.2.label)
  | none => .ok ()

def validateText (capacity : VoiceChatPublicationCapacity) (agent transcription : Option String) :
    Except (VoiceChatConversationError ε) Unit :=
  firstOver
    [(agent.elim 0 String.utf8ByteSize, .agentTextBytes),
      (transcription.elim 0 String.utf8ByteSize, .transcriptionTextBytes)] capacity

def validateFrame (capacity : VoiceChatPublicationCapacity) (output : OwnedHostOutput α ρ) :
    Except (VoiceChatConversationError ε) Unit :=
  firstOver
    [(output.speech.elim 0 length, .speechSamples),
      (output.transcription.elim 0 fun frame => frame.emitted.length, .transcriptionTokens),
      (output.generatedCodes.elim 0 length, .audioCodes),
      (output.diagnostics.length, .diagnostics)] capacity

def takeBytes (remaining bytes : Nat) : Except (VoiceChatConversationError ε) Nat :=
  if bytes ≤ remaining then .ok (remaining - bytes)
  else .error (.capacity PayloadKind.toolBytes.label)

def takeParts (remaining : Nat) (parts : List String) : Except (VoiceChatConversationError ε) Nat :=
  parts.foldlM (fun remaining part => takeBytes remaining part.utf8ByteSize) remaining

def takeArguments (serialized : ρ → Option Nat) (remaining : Nat) (arguments : ρ) :
    Except (VoiceChatConversationError ε) Nat :=
  match serialized arguments with
  | none => .error (.capacity PayloadKind.toolBytes.label)
  | some bytes => takeBytes remaining bytes

def takeEvent (serialized : ρ → Option Nat) (remaining : Nat) :
    SemanticEvent ρ → Except (VoiceChatConversationError ε) Nat
  | .toolCallStart _ id name => takeParts remaining [id, name]
  | .toolArgumentsDelta _ jsonFragment => takeParts remaining [jsonFragment]
  | .reasoningDelta text | .textDelta text => takeParts remaining [text]
  | .toolCallCompleted _ id name arguments => do
    let remaining ← takeArguments serialized remaining arguments
    takeParts remaining [id, name]
  | .toolCallRejected _ id name arguments error => do
    let remaining ← takeArguments serialized remaining arguments
    takeParts remaining [id, name, error]
  | .finished _ => takeParts remaining []

def validateTools (serialized : ρ → Option Nat) (capacity : VoiceChatPublicationCapacity) :
    Option (List (SemanticEvent ρ)) → Except (VoiceChatConversationError ε) Nat
  | none => .ok 0
  | some events =>
    if capacity .toolEvents < events.length then
      .error (.capacity PayloadKind.toolEvents.label)
    else do
      let remaining ← events.foldlM (takeEvent serialized) (capacity .toolBytes)
      return capacity .toolBytes - remaining

/-- `Reservation::prepare`: the charge of an output that fits what was reserved for it.
`retention` is the answer of the retained-size admission. -/
def prepare (serialized : ρ → Option Nat) (capacity : VoiceChatPublicationCapacity)
    (output : VoiceChatConversationOutput α ρ) (retention : Except ε Unit) :
    Except (VoiceChatPublicationError ε) VoiceChatPublicationCapacity := do
  (validateFrame capacity output.frame).mapError .conversation
  let bytes ← (validateTools serialized capacity output.tools).mapError .conversation
  (validateText capacity output.agentText output.transcription).mapError .conversation
  retention.mapError .backend
  return fun
    | .speechSamples => output.frame.speech.elim 0 length
    | .transcriptionTokens => output.frame.transcription.elim 0 fun frame => frame.emitted.length
    | .agentTextBytes => output.agentText.elim 0 String.utf8ByteSize
    | .transcriptionTextBytes => output.transcription.elim 0 String.utf8ByteSize
    | .audioCodes => output.frame.generatedCodes.elim 0 length
    | .toolEvents => output.tools.elim 0 length
    | .toolBytes => bytes
    | .diagnostics => output.frame.diagnostics.length

section Checks

theorem firstOver_eq_ok {sizes : List (Nat × PayloadKind)}
    (hp : firstOver sizes capacity = (.ok () : Except (VoiceChatConversationError ε) Unit)) :
    ∀ size ∈ sizes, size.1 ≤ capacity size.2 := by
  intro size hm
  unfold firstOver at hp
  split at hp
  · cases hp
  · rename_i hn
    simpa using find?_eq_none.mp hn size hm

variable {remaining rest : Nat}

theorem takeBytes_eq_ok {bytes : Nat}
    (ht : takeBytes remaining bytes = (.ok rest : Except (VoiceChatConversationError ε) Nat)) :
    remaining = bytes + rest := by
  unfold takeBytes at ht
  split at ht
  · obtain rfl := Except.ok.inj ht
    omega
  · cases ht

theorem takeParts_eq_ok {parts : List String}
    (ht : takeParts remaining parts = (.ok rest : Except (VoiceChatConversationError ε) Nat)) :
    remaining = (parts.map String.utf8ByteSize).sum + rest := by
  induction parts generalizing remaining with
  | nil =>
    obtain rfl := Except.ok.inj ht
    simp
  | cons part parts hi =>
    rw [takeParts, foldlM_cons, bind_eq_ok] at ht
    obtain ⟨middle, hf, ho⟩ := ht
    have := takeBytes_eq_ok hf
    have := hi ho
    rw [map_cons, sum_cons]
    omega

variable {serialized : ρ → Option Nat}

theorem takeArguments_eq_ok {arguments : ρ} (ht : takeArguments serialized remaining arguments =
      (.ok rest : Except (VoiceChatConversationError ε) Nat)) :
    ∃ bytes, serialized arguments = some bytes ∧ remaining = bytes + rest := by
  unfold takeArguments at ht
  split at ht
  · cases ht
  · rename_i bytes hs
    exact ⟨bytes, hs, takeBytes_eq_ok ht⟩

theorem takeEvent_eq_ok {event : SemanticEvent ρ} (ht : takeEvent serialized remaining event =
      (.ok rest : Except (VoiceChatConversationError ε) Nat)) :
    remaining = (event.bytes serialized).getD 0 + rest := by
  cases event with
  | reasoningDelta | textDelta | toolCallStart | toolArgumentsDelta | finished =>
    simpa [SemanticEvent.bytes] using takeParts_eq_ok ht
  | toolCallCompleted index id name arguments
  | toolCallRejected index id name arguments error =>
    obtain ⟨middle, hf, hp⟩ := bind_eq_ok.mp ht
    obtain ⟨bytes, hs, _⟩ := takeArguments_eq_ok hf
    have := takeParts_eq_ok hp
    simp only [map_cons, map_nil, sum_cons, sum_nil] at this
    simp only [SemanticEvent.bytes, hs, map_some, getD_some]
    omega

theorem takeEvents_eq_ok {events : List (SemanticEvent ρ)}
    (ht : events.foldlM (takeEvent serialized) remaining =
      (.ok rest : Except (VoiceChatConversationError ε) Nat)) :
    remaining = toolBytes serialized events + rest := by
  induction events generalizing remaining with
  | nil =>
    obtain rfl := Except.ok.inj ht
    simp [toolBytes]
  | cons event events hi =>
    rw [foldlM_cons, bind_eq_ok] at ht
    obtain ⟨middle, hf, ho⟩ := ht
    have := takeEvent_eq_ok hf
    have := hi ho
    rw [toolBytes] at this
    rw [toolBytes, map_cons, sum_cons]
    omega

theorem validateTools_eq_ok {events : Option (List (SemanticEvent ρ))} {bytes : Nat}
    (hp : validateTools serialized capacity events =
      (.ok bytes : Except (VoiceChatConversationError ε) Nat)) :
    events.elim 0 length ≤ capacity .toolEvents ∧ bytes ≤ capacity .toolBytes ∧
      bytes = events.elim 0 (toolBytes serialized) := by
  cases events with
  | none =>
    obtain rfl := Except.ok.inj hp
    exact ⟨Nat.zero_le _, Nat.zero_le _, rfl⟩
  | some events =>
    simp only [validateTools] at hp
    by_cases hm : capacity .toolEvents < events.length
    · rw [if_pos hm] at hp
      cases hp
    rw [if_neg hm, bind_eq_ok] at hp
    obtain ⟨rest, ht, hs⟩ := hp
    have := takeEvents_eq_ok ht
    obtain rfl := Except.ok.inj hs
    simp only [elim_some]
    omega

theorem prepare_eq_ok {charge : VoiceChatPublicationCapacity}
    {output : VoiceChatConversationOutput α ρ} {retention : Except ε Unit}
    (hp : prepare serialized capacity output retention = .ok charge) :
    charge = output.payload serialized ∧ ∀ kind, charge kind ≤ capacity kind := by
  obtain ⟨_, hfr, hp⟩ := bind_eq_ok.mp hp
  obtain ⟨bytes, hto, hp⟩ := bind_eq_ok.mp hp
  obtain ⟨_, hwo, hp⟩ := bind_eq_ok.mp hp
  obtain ⟨_, _, hp⟩ := bind_eq_ok.mp hp
  obtain rfl := Except.ok.inj hp
  obtain ⟨few, hsm, hs⟩ := validateTools_eq_ok (mapError_eq_ok.mp hto)
  have hf := firstOver_eq_ok (mapError_eq_ok.mp hfr)
  have hw := firstOver_eq_ok (mapError_eq_ok.mp hwo)
  simp only [mem_cons, not_mem_nil, or_false, forall_eq_or_imp, forall_eq] at hf hw
  obtain ⟨hsp, hts, hc, hd⟩ := hf
  obtain ⟨ha, ht⟩ := hw
  constructor
  · funext kind
    cases kind <;> simp only [VoiceChatConversationOutput.payload, hs]
  · intro kind
    cases kind <;> assumption

end Checks

structure VoiceChatPublicationLimits where
  maxPublications : Nat
  capacity : VoiceChatPublicationCapacity

structure VoiceChatPublicationUsage where
  queuedPublications : Nat
  reservedPublications : Nat
  queued : VoiceChatPublicationCapacity
  reserved : VoiceChatPublicationCapacity

structure Queued (α ρ : Type) where
  output : VoiceChatConversationOutput α ρ
  charge : VoiceChatPublicationCapacity

structure Queue (α ρ : Type) where
  limits : VoiceChatPublicationLimits
  output : List (Queued α ρ)
  usage : VoiceChatPublicationUsage

variable {limits : VoiceChatPublicationLimits} (queue : Queue α ρ)

namespace Queue

def new (limits : VoiceChatPublicationLimits) : Except (VoiceChatPublicationError ε) (Queue α ρ) :=
  if limits.maxPublications = 0 then .error (.capacity "publication slots")
  else
    .ok
      { limits
        output := []
        usage :=
          { queuedPublications := 0
            reservedPublications := 0
            queued _ := 0
            reserved _ := 0 } }

theorem new_eq_ok {queue : Queue α ρ}
    (hc : new limits = (.ok queue : Except (VoiceChatPublicationError ε) _)) :
    queue.limits = limits ∧ queue.output = [] := by
  unfold new at hc
  split at hc
  · cases hc
  obtain rfl := Except.ok.inj hc
  exact ⟨rfl, rfl⟩

/-- Sets credit aside. `none` is a subtraction below zero, here and in what follows. -/
def reserve (capacity : VoiceChatPublicationCapacity) :
    Option (Except (VoiceChatPublicationError ε) (Queue α ρ)) := do
  let slots ← checkedSub queue.limits.maxPublications queue.usage.queuedPublications
  if slots ≤ queue.usage.reservedPublications then some (.error (.capacity "publication slots"))
  else
    let unqueued ← queue.limits.capacity.subtract queue.usage.queued
    let available ← unqueued.subtract queue.usage.reserved
    match PayloadKind.all.find? fun kind => available kind < capacity kind with
    | some kind => some (.error (.capacity kind.label))
    | none =>
      some (.ok
        { queue with
          usage :=
            { queue.usage with
              reserved := queue.usage.reserved.add capacity
              reservedPublications := queue.usage.reservedPublications + 1 } })

def release (capacity : VoiceChatPublicationCapacity) : Option (Queue α ρ) := do
  let reservedPublications ← checkedSub queue.usage.reservedPublications 1
  let reserved ← queue.usage.reserved.subtract capacity
  return { queue with usage := { queue.usage with reservedPublications, reserved } }

/-- `Reservation::commit`: the reservation becomes a queued publication. -/
def commit (capacity : VoiceChatPublicationCapacity)
    (output : VoiceChatConversationOutput α ρ) (charge : VoiceChatPublicationCapacity) :
    Option (Queue α ρ) := do
  let queue ← queue.release capacity
  return { queue with
           output := queue.output ++ [{ output, charge }]
           usage :=
             { queue.usage with
               queuedPublications := queue.usage.queuedPublications + 1
               queued := queue.usage.queued.add charge } }

def pop : Option (Option (VoiceChatConversationOutput α ρ) × Queue α ρ) :=
  match queue.output with
  | [] => some (none, queue)
  | item :: rest => do
    let queued ← queue.usage.queued.subtract item.charge
    let queuedPublications ← checkedSub queue.usage.queuedPublications 1
    return (some item.output,
      { queue with
        output := rest
        usage := { queue.usage with queued, queuedPublications } })

end Queue

/-- The counters are the sums over the queued publications and over the live reservations, and
together they are within the limits. -/
structure Balanced (serialized : ρ → Option Nat) (queue : Queue α ρ)
    (live : List VoiceChatPublicationCapacity) : Prop where
  queued : ∀ kind, queue.usage.queued kind = (queue.output.map fun item => item.charge kind).sum
  queuedPublications : queue.usage.queuedPublications = queue.output.length
  reserved : ∀ kind, queue.usage.reserved kind = (live.map fun capacity => capacity kind).sum
  reservedPublications : queue.usage.reservedPublications = live.length
  within : ∀ kind, queue.usage.queued kind + queue.usage.reserved kind ≤ queue.limits.capacity kind
  slots : queue.usage.queuedPublications + queue.usage.reservedPublications ≤
    queue.limits.maxPublications
  charged : ∀ item ∈ queue.output, item.charge = item.output.payload serialized

namespace Balanced

variable {serialized : ρ → Option Nat} {queue : Queue α ρ}
  {live : List VoiceChatPublicationCapacity} {capacity charge : VoiceChatPublicationCapacity}
  {output : VoiceChatConversationOutput α ρ}

theorem perm {others : List VoiceChatPublicationCapacity} (hb : Balanced serialized queue live)
    (hs : live.Perm others) : Balanced serialized queue others :=
  { hb with
    reserved kind := (hb.reserved kind).trans (hs.map _).sum_eq
    reservedPublications := hb.reservedPublications.trans hs.length_eq }

theorem new (hc : Queue.new limits = (.ok queue : Except (VoiceChatPublicationError ε) _)) :
    Balanced serialized queue [] := by
  unfold Queue.new at hc
  split at hc
  · cases hc
  obtain rfl := Except.ok.inj hc
  refine ⟨fun _ => rfl, rfl, fun _ => rfl, rfl, fun _ => Nat.zero_le _, Nat.zero_le _,
    fun item hm => ?_⟩
  cases hm

theorem reserve (hb : Balanced serialized queue live) (capacity : VoiceChatPublicationCapacity) :
    ∃ result : Except (VoiceChatPublicationError ε) (Queue α ρ),
      queue.reserve capacity = some result ∧ ∀ next, result = .ok next →
        Balanced serialized next (capacity :: live) ∧ next.output = queue.output ∧
          next.limits = queue.limits := by
  have slots : ∃ slots, checkedSub queue.limits.maxPublications queue.usage.queuedPublications =
      some slots := by
    have := hb.slots
    exact ⟨_, checkedSub_eq_some.mpr ⟨by omega, rfl⟩⟩
  obtain ⟨slots, hc⟩ := slots
  by_cases hf : slots ≤ queue.usage.reservedPublications
  · refine ⟨.error (.capacity "publication slots"), ?_, nofun⟩
    simp only [Queue.reserve, hc, bind_eq_bind, bind_some, hf, if_true]
  have hu : queue.limits.capacity.subtract queue.usage.queued =
      some fun kind => queue.limits.capacity kind - queue.usage.queued kind := by
    apply VoiceChatPublicationCapacity.subtract_eq_some.mpr
    funext kind
    have := hb.within kind
    exact (Nat.sub_add_cancel (by omega)).symm
  have ha : VoiceChatPublicationCapacity.subtract
      (fun kind => queue.limits.capacity kind - queue.usage.queued kind) queue.usage.reserved =
      some fun kind => queue.limits.capacity kind - queue.usage.queued kind -
        queue.usage.reserved kind := by
    apply VoiceChatPublicationCapacity.subtract_eq_some.mpr
    funext kind
    have := hb.within kind
    exact (Nat.sub_add_cancel (by omega)).symm
  cases he : PayloadKind.all.find? fun kind =>
      decide (queue.limits.capacity kind - queue.usage.queued kind - queue.usage.reserved kind <
        capacity kind) with
  | some kind =>
    refine ⟨.error (.capacity kind.label), ?_, nofun⟩
    simp only [Queue.reserve, hc, bind_eq_bind, bind_some, hf, if_false, hu, ha, he]
  | none =>
    refine ⟨_, by simp only [Queue.reserve, hc, bind_eq_bind, bind_some, hf,
      if_false, hu, ha, he]; rfl, ?_⟩
    rintro next hs
    obtain rfl := Except.ok.inj hs
    refine ⟨⟨hb.queued, hb.queuedPublications, ?_, ?_, ?_, ?_, hb.charged⟩, rfl, rfl⟩
    · intro kind
      rw [map_cons, sum_cons, ← hb.reserved kind]
      exact add_comm _ _
    · rw [length_cons, ← hb.reservedPublications]
    · intro kind
      have hfi := find?_eq_none.mp he kind kind.mem_all
      have := hb.within kind
      show queue.usage.queued kind + (queue.usage.reserved kind + capacity kind) ≤
        queue.limits.capacity kind
      simp only [decide_eq_true_eq] at hfi
      omega
    · have := checkedSub_eq_some.mp hc
      show queue.usage.queuedPublications + (queue.usage.reservedPublications + 1) ≤
        queue.limits.maxPublications
      omega

theorem release (hb : Balanced serialized queue (capacity :: live)) :
    ∃ next, queue.release capacity = some next ∧ Balanced serialized next live ∧
      next.output = queue.output ∧ next.limits = queue.limits ∧
      next.usage.queued = queue.usage.queued ∧
      next.usage.queuedPublications = queue.usage.queuedPublications ∧
      queue.usage.reserved = next.usage.reserved.add capacity ∧
      queue.usage.reservedPublications = next.usage.reservedPublications + 1 := by
  have hc : checkedSub queue.usage.reservedPublications 1 = some live.length := by
    rw [checkedSub_eq_some, hb.reservedPublications, length_cons]
    omega
  have hr : queue.usage.reserved.subtract capacity =
      some fun kind => (live.map fun capacity => capacity kind).sum := by
    apply VoiceChatPublicationCapacity.subtract_eq_some.mpr
    funext kind
    rw [hb.reserved kind, map_cons, sum_cons]
    exact add_comm _ _
  refine ⟨{ queue with
            usage :=
              { queue.usage with
                reservedPublications := live.length
                reserved kind := (live.map fun capacity => capacity kind).sum } },
    by simp only [Queue.release, hc, hr, bind_eq_bind]; rfl,
    ⟨hb.queued, hb.queuedPublications, fun _ => rfl, rfl, fun kind => ?_, ?_,
      hb.charged⟩, rfl, rfl, rfl, rfl, VoiceChatPublicationCapacity.subtract_eq_some.mp hr,
      hb.reservedPublications⟩
  · have := hb.within kind
    rw [hb.reserved kind, map_cons, sum_cons] at this
    show queue.usage.queued kind + (live.map fun capacity => capacity kind).sum ≤
      queue.limits.capacity kind
    omega
  · have := hb.slots
    rw [hb.reservedPublications, length_cons] at this
    show queue.usage.queuedPublications + live.length ≤ queue.limits.maxPublications
    omega

theorem commit (hb : Balanced serialized queue (capacity :: live))
    (he : charge = output.payload serialized) (hf : ∀ kind, charge kind ≤ capacity kind) :
    ∃ next, queue.commit capacity output charge = some next ∧ Balanced serialized next live ∧
      next.output = queue.output ++ [⟨output, charge⟩] ∧ next.limits = queue.limits := by
  obtain ⟨freed, hr, hk, hs, hl, hq, hc, hre, hrs⟩ := hb.release
  refine ⟨{ freed with
            output := freed.output ++ [⟨output, charge⟩]
            usage :=
              { freed.usage with
                queuedPublications := freed.usage.queuedPublications + 1
                queued := freed.usage.queued.add charge } },
    by simp only [Queue.commit, hr, bind_eq_bind]; rfl,
    ⟨fun kind => ?_, ?_, hk.reserved, hk.reservedPublications, fun kind => ?_, ?_, ?_⟩,
    by rw [hs], hl⟩
  · simp only [map_append, sum_append, map_cons, map_nil, sum_cons,
      sum_nil, add_zero, ← hk.queued kind]
    rfl
  · simp only [length_append, length_singleton, ← hk.queuedPublications]
  · have := hb.within kind
    have := hf kind
    have hsp : queue.usage.reserved kind = freed.usage.reserved kind + capacity kind :=
      congrFun hre kind
    show freed.usage.queued kind + charge kind + freed.usage.reserved kind ≤
      freed.limits.capacity kind
    rw [hl, hq]
    omega
  · have := hb.slots
    show freed.usage.queuedPublications + 1 + freed.usage.reservedPublications ≤ _
    rw [hl, hc]
    omega
  · intro item hm
    rcases mem_append.mp hm with old | ha
    · exact hk.charged item old
    · obtain rfl := mem_singleton.mp ha
      exact he

theorem pop (hb : Balanced serialized queue live) :
    ∃ delivered next, queue.pop = some (delivered, next) ∧ Balanced serialized next live ∧
      queue.output.map Queued.output = delivered.toList ++ next.output.map Queued.output ∧
      next.limits = queue.limits := by
  cases hs : queue.output with
  | nil => exact ⟨none, queue, by simp only [Queue.pop, hs], hb, by simp [hs], rfl⟩
  | cons item rest =>
    have hco : checkedSub queue.usage.queuedPublications 1 = some rest.length := by
      rw [checkedSub_eq_some, hb.queuedPublications, hs, length_cons]
      omega
    have hc : queue.usage.queued.subtract item.charge =
        some fun kind => (rest.map fun item => item.charge kind).sum := by
      apply VoiceChatPublicationCapacity.subtract_eq_some.mpr
      funext kind
      rw [hb.queued kind, hs, map_cons, sum_cons]
      exact add_comm _ _
    refine ⟨some item.output,
      { queue with
        output := rest
        usage :=
          { queue.usage with
            queued kind := (rest.map fun item => item.charge kind).sum
            queuedPublications := rest.length } },
      by simp only [Queue.pop, hs, hco, hc, bind_eq_bind]; rfl,
      ⟨fun _ => rfl, rfl, hb.reserved, hb.reservedPublications, fun kind => ?_, ?_,
        fun other hm => ?_⟩, rfl, rfl⟩
    · have := hb.within kind
      rw [hb.queued kind, hs, map_cons, sum_cons] at this
      show (rest.map fun item => item.charge kind).sum + queue.usage.reserved kind ≤
        queue.limits.capacity kind
      omega
    · have := hb.slots
      rw [hb.queuedPublications, hs, length_cons] at this
      show rest.length + queue.usage.reservedPublications ≤ queue.limits.maxPublications
      omega
    · exact hb.charged other (hs ▸ mem_cons_of_mem _ hm)

end Balanced

end Eredu.Voice
