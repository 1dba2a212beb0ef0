import Eredu.Scheduling.Types

/-!
# Rank agreement over a word transport

The wire records of `consensus.rs` and the validation of a rank-major gather of
them. A backend supplies the gather only: it may fail, exceed its bound or return
any words, so every check below is made on the returned words. The wait policy of
a bounded gather is part of the transport.
-/

namespace Eredu.Scheduling

open Effect

inductive ConsensusError where
  | emptyTopology
  | metadataOverflow (subject : String)
  | transport (message : String)
  | malformedGather (expected actual participants : Nat)
  | mismatch (context : String) (rank : Nat)
  | completionHeader (rank : Nat)
  | completionIdentity (rank : Nat)
  | completionStatus (rank : Nat)
  | completionOutput (rank : Nat)
  deriving DecidableEq, Repr

def ConsensusError.toText : ConsensusError → String
  | .emptyTopology => "distributed scheduler consensus topology has no participants"
  | .metadataOverflow subject => s!"distributed scheduler {subject} exceeds u32"
  | .transport message => s!"distributed scheduler consensus failed: {message}"
  | .malformedGather expected actual participants =>
      s!"distributed scheduler consensus returned {actual} words; expected {expected} for " ++
        s!"{participants} ranks"
  | .mismatch context rank => s!"{context} differs at rank {rank}"
  | .completionHeader rank => s!"distributed completion header differs at rank {rank}"
  | .completionIdentity rank => s!"distributed completion identity differs at rank {rank}"
  | .completionStatus rank => s!"distributed completion status is invalid at rank {rank}"
  | .completionOutput rank => s!"distributed completion output differs at rank {rank}"

inductive GatherOutcome where
  | failed (message : String)
  | deadlineExceeded (cancellation : String)
  | completed (words : List UInt32)

/-- A topology-scoped transport for equally sized word frames. -/
structure Transport (World : Type) where
  participantCount : Nat
  allGatherWords : List UInt32 → World → GatherOutcome × World

structure ScheduledWork where
  id : WorkId
  descriptor : List UInt32
  deriving DecidableEq, Repr

inductive CompletionObservation where
  | incomplete
  | complete
  | failed
  deriving DecidableEq, Repr

def CompletionObservation.wire : CompletionObservation → UInt32
  | .incomplete => 0
  | .complete => 1
  | .failed => 2

inductive CompletionResolution where
  | incomplete
  | complete
  | failedPending
  | failedComplete
  deriving DecidableEq, Repr

/-- The resolution a lone rank draws from its own observation. -/
def CompletionObservation.alone : CompletionObservation → CompletionResolution
  | .incomplete => .incomplete
  | .complete => .complete
  | .failed => .failedComplete

/-- The low and the high word of a `u64`, in wire order. -/
def pushU64 (value : UInt64) : List UInt32 := [value.toUInt32, (value >>> 32).toUInt32]

def WorkId.words (id : WorkId) : List UInt32 := pushU64 id.request.value ++ pushU64 id.sequence

/-- `u32::try_from` of a length. -/
def wordOfLength (subject : String) (length : Nat) : Except ConsensusError UInt32 :=
  if length < 2 ^ 32 then .ok (UInt32.ofNat length) else .error (.metadataOverflow subject)

def wordOfBool (value : Bool) : UInt32 := if value then 1 else 0

def CancellationCause.word : CancellationCause → UInt32
  | .explicit => 1
  | .deadline => 2

def rankFrame (gathered : List UInt32) (length rank : Nat) : List UInt32 :=
  (gathered.drop (rank * length)).take length

section Protocols

variable {World : Type} (transport : Transport World)

def checkedParticipants : Except ConsensusError Nat :=
  if transport.participantCount = 0 then .error .emptyTopology else .ok transport.participantCount

variable (words : List UInt32) (protocol : UInt64)

def gatherWordsBounded (participants : Nat) : Effect World ConsensusError (List UInt32) := do
  let expected := words.length * participants
  if usizeMax < expected then
    fail (.metadataOverflow "gathered word count")
  else
    let outcome ← apply (transport.allGatherWords words)
    match outcome with
    | .failed message => fail (.transport message)
    | .deadlineExceeded cancellation =>
        fail (.transport s!"bounded consensus deadline exceeded ({cancellation})")
    | .completed gathered =>
        if gathered.length ≠ expected then
          fail (.malformedGather expected gathered.length participants)
        else
          pure gathered

def equalFrames (gathered : List UInt32) (context : String) (participants : Nat) :
    Except ConsensusError Unit :=
  (List.range participants).forM fun rank =>
    if rankFrame gathered words.length rank = words then .ok () else .error (.mismatch context rank)

def validateEqualWordsBounded (context : String) : Effect World ConsensusError Unit := do
  let participants ← ofResult (checkedParticipants transport)
  if participants = 1 then
    pure ()
  else
    let gathered ← gatherWordsBounded transport words participants
    ofResult (equalFrames words gathered context participants)

variable (plan : List ScheduledWork)

def scheduleWords : Except ConsensusError (List UInt32) :=
  plan.foldlM (fun words work => do
    let length ← wordOfLength "work descriptor length" work.descriptor.length
    pure (words ++ work.id.words ++ [length] ++ work.descriptor)) []

def validateScheduleBounded (drainCycle protocol : UInt64) : Effect World ConsensusError Unit := do
  let length ← ofResult (wordOfLength "schedule length" plan.length)
  let body ← ofResult (scheduleWords plan)
  validateEqualWordsBounded transport
    ([length] ++ pushU64 drainCycle ++ pushU64 protocol ++ body) "distributed work descriptors"

abbrev LocalCompletion := WorkId × CompletionObservation × Vector UInt32 8

variable (completions : List LocalCompletion)

def completionWords : List UInt32 :=
  completions.flatMap fun (id, status, output) => id.words ++ [status.wire] ++ output.toList

def completionStride : Nat := 13

def checkCompletionFrame (frame : List UInt32) (completions : List LocalCompletion) (rank : Nat) :
    Except ConsensusError Unit := do
  if frame.take 3 ≠ words.take 3 then
    throw (.completionHeader rank)
  completions.zipIdx.forM fun ((id, _, _), index) => do
    let record := frame.drop (3 + index * completionStride)
    if record.take 4 ≠ id.words then
      throw (.completionIdentity rank)
    if CompletionObservation.failed.wire < record.getD 4 0 then
      throw (.completionStatus rank)

/-- Combines the statuses all ranks report for the transition at `index`. -/
def resolveRecord (gathered : List UInt32) (length participants index : Nat) :
    Except ConsensusError CompletionResolution := do
  let offset := 3 + index * completionStride
  let statuses := (List.range participants).map fun rank =>
    gathered.getD (rank * length + offset + 4) 0
  let failed := statuses.contains CompletionObservation.failed.wire
  let incomplete := statuses.contains CompletionObservation.incomplete.wire
  if !failed && !incomplete then
    let expected := (gathered.drop (offset + 5)).take 8
    (List.range' 1 (participants - 1)).forM fun rank =>
      if (gathered.drop (rank * length + offset + 5)).take 8 = expected then .ok ()
      else .error (.completionOutput rank)
  match failed, incomplete with
  | true, true => pure .failedPending
  | true, false => pure .failedComplete
  | false, true => pure .incomplete
  | false, false => pure .complete

def resolveOutputCompletionsBounded : Effect World ConsensusError (List CompletionResolution) := do
  let participants ← ofResult (checkedParticipants transport)
  if participants = 1 then
    pure (completions.map fun (_, status, _) => status.alone)
  else
    let count ← ofResult (wordOfLength "completion work count" completions.length)
    let words := pushU64 protocol ++ [count] ++ completionWords completions
    let gathered ← gatherWordsBounded transport words participants
    ofResult ((List.range participants).forM fun rank =>
      checkCompletionFrame words (rankFrame gathered words.length rank) completions rank)
    ofResult ((List.range completions.length).mapM
      (resolveRecord gathered words.length participants))

def agreeSubmissionStatusBounded (drainCycle : UInt64) (expected locallySubmitted : Nat)
    (localSuccess : Bool) : Effect World ConsensusError Bool := do
  let participants ← ofResult (checkedParticipants transport)
  let expectedWord ← ofResult (wordOfLength "expected submission count" expected)
  let submittedWord ← ofResult (wordOfLength "local submission count" locallySubmitted)
  let semantic := pushU64 protocol ++ pushU64 drainCycle ++ [expectedWord]
  let words := semantic ++ [submittedWord, wordOfBool localSuccess]
  let gathered ← gatherWordsBounded transport words participants
  ofResult ((List.range participants).foldlM (fun allSubmitted rank =>
    let frame := rankFrame gathered words.length rank
    if frame.take 5 ≠ semantic then
      .error (.mismatch "distributed submission transaction" rank)
    else if frame.getD 6 0 = 0 then
      .ok false
    else if frame.getD 6 0 = 1 then
      .ok (allSubmitted && decide ((frame.getD 5 0).toNat = expected))
    else
      .error (.mismatch "distributed submission status" rank)) true)

def agreeDispositionStatusBounded (request : RequestId) (cause : CancellationCause) (phase : UInt32)
    (localReady : Bool) : Effect World ConsensusError Bool := do
  let participants ← ofResult (checkedParticipants transport)
  let semantic := pushU64 protocol ++ pushU64 request.value ++ [cause.word, phase]
  let words := semantic ++ [wordOfBool localReady]
  let gathered ← gatherWordsBounded transport words participants
  ofResult ((List.range participants).foldlM (fun allReady rank =>
    let frame := rankFrame gathered words.length rank
    if frame.take 6 ≠ semantic then
      .error (.mismatch "distributed cancellation transaction" rank)
    else if frame.getD 6 0 = 0 then
      .ok false
    else if frame.getD 6 0 = 1 then
      .ok allReady
    else
      .error (.mismatch "distributed cancellation readiness" rank)) true)

/-- The deadline records of the active requests, which must be strictly increasing. -/
def deadlineWords : Option RequestId → List (RequestId × Bool) →
    Except ConsensusError (List UInt32)
  | _, [] => .ok []
  | previous, (request, expired) :: rest => do
      if previous.any fun previous => (compare request previous).isLE then
        throw (.mismatch "local deadline request ordering" 0)
      let words ← deadlineWords (some request) rest
      pure (pushU64 request.value ++ [wordOfBool expired] ++ words)

/-- Checks one rank's deadline frame and adds its expiries to those found so far. -/
def mergeDeadlineFrame (frame : List UInt32) (candidates : List (RequestId × Bool)) (rank : Nat)
    (expired : List Bool) : Except ConsensusError (List Bool) := do
  if frame.take 4 ≠ words.take 4 then
    throw (.mismatch "distributed deadline request set header" rank)
  let merged ← (candidates.zipIdx.zip expired).mapM fun (((request, _), index), expired) => do
    let record := frame.drop (4 + index * 3)
    if record.take 2 ≠ pushU64 request.value then
      throw (.mismatch "distributed deadline request identity" rank)
    if record.getD 2 0 = 0 then
      pure expired
    else if record.getD 2 0 = 1 then
      pure true
    else
      throw (.mismatch "distributed deadline request status" rank)
  if (frame.drop (4 + candidates.length * 3)).any (· ≠ 0) then
    throw (.mismatch "distributed deadline request padding" rank)
  pure merged

/-- Agrees the exact active request set and returns every request whose deadline has expired on at
least one rank. -/
def agreeDeadlineCandidatesBounded (candidates : List (RequestId × Bool)) (maxRequests : Nat) :
    Effect World ConsensusError (List RequestId) := do
  let participants ← ofResult (checkedParticipants transport)
  if maxRequests < candidates.length then
    fail (.metadataOverflow "active deadline request count")
  else
    let count ← ofResult (wordOfLength "active deadline request count" candidates.length)
    let slots ← ofResult (wordOfLength "deadline request slots" maxRequests)
    let records ← ofResult (deadlineWords none candidates)
    let body := pushU64 protocol ++ [count, slots] ++ records
    let words := body.rightpad (4 + maxRequests * 3) 0
    let gathered ← gatherWordsBounded transport words participants
    let expired ← ofResult ((List.range participants).foldlM (fun expired rank =>
      mergeDeadlineFrame words (rankFrame gathered words.length rank) candidates rank expired)
      (candidates.map fun _ => false))
    pure ((candidates.zip expired).filterMap fun ((request, _), expired) =>
      if expired then some request else none)

end Protocols

end Eredu.Scheduling
