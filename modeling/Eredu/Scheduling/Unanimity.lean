import Eredu.Foundation.Agreement
import Eredu.Scheduling.Consensus

/-!
# Unanimity of the consensus primitives

Every primitive sends one frame per rank and decides from the gathered frames. A
`Protocol` separates the two: the frame of a local input, and the verdict that a
rank draws from its own frame and all of them. Ranks that see the same gather
reach the same verdict, or all of them fail.
-/

namespace Eredu.Scheduling

open Effect List CompletionObservation UInt32 Nat

variable {World Input α : Type}

/-- One exchange: what a rank sends and how it judges what all ranks sent. -/
structure Protocol (Input α : Type) where
  frame : Input → Except ConsensusError (List UInt32)
  verdict : (participants : Nat) → Input → (words gathered : List UInt32) → Except ConsensusError α

variable {words gathered : List UInt32} {protocol : Protocol Input α}

namespace Protocol

def exchange (protocol : Protocol Input α) (transport : Transport World) (input : Input) :
    Effect World ConsensusError α := do
  let participants ← .ofResult (checkedParticipants transport)
  let words ← .ofResult (protocol.frame input)
  let gathered ← gatherWordsBounded transport words participants
  .ofResult (protocol.verdict participants input words gathered)

/-- An exchange whose gather returns the frames of `n` ranks ends with the verdict on them. -/
theorem exchange_outcome {transport : Transport World} {input : Input} {world after : World}
    (hra : transport.participantCount ≠ 0) (hf : protocol.frame input = .ok words)
    (ha : transport.allGatherWords words world = (.completed gathered, after))
    (hc : gathered.length = words.length * transport.participantCount)
    (hr : gathered.length ≤ usizeMax) : (protocol.exchange transport input).outcome world =
      ((protocol.verdict transport.participantCount input words gathered).mapError .error,
        after) := by
  have hfi : ¬ usizeMax < words.length * transport.participantCount := by omega
  simp only [exchange, checkedParticipants, hra, if_false, outcome_bind, outcome_ofResult_ok,
    hf, gatherWordsBounded, hfi, outcome_apply, ha, hc, ne_eq, not_true_eq_false,
    outcome_pure]
  cases protocol.verdict transport.participantCount input words gathered <;> rfl

end Protocol

structure ScheduleInput where
  plan : List ScheduledWork
  drainCycle : UInt64
  protocol : UInt64
  deriving DecidableEq

structure CompletionInput where
  protocol : UInt64
  completions : List LocalCompletion

structure SubmissionInput where
  protocol : UInt64
  drainCycle : UInt64
  expected : Nat
  locallySubmitted : Nat
  localSuccess : Bool

structure DispositionInput where
  protocol : UInt64
  request : RequestId
  cause : CancellationCause
  phase : UInt32
  localReady : Bool

structure DeadlineInput where
  protocol : UInt64
  candidates : List (RequestId × Bool)
  maxRequests : Nat

def scheduleFrame (input : ScheduleInput) : Except ConsensusError (List UInt32) := do
  let length ← wordOfLength "schedule length" input.plan.length
  let body ← scheduleWords input.plan
  return [length] ++ pushU64 input.drainCycle ++ pushU64 input.protocol ++ body

def scheduleProtocol : Protocol ScheduleInput Unit where
  frame := scheduleFrame
  verdict participants _ words gathered :=
    equalFrames words gathered "distributed work descriptors" participants

def completionProtocol : Protocol CompletionInput (List CompletionResolution) where
  frame input := do
    let count ← wordOfLength "completion work count" input.completions.length
    return pushU64 input.protocol ++ [count] ++ completionWords input.completions
  verdict participants input words gathered := do
    (range participants).forM fun rank =>
      checkCompletionFrame words (rankFrame gathered words.length rank) input.completions rank
    (range input.completions.length).mapM (resolveRecord gathered words.length participants)

/-- The words of a submission frame that all ranks must share. -/
def SubmissionInput.semantic (input : SubmissionInput) : List UInt32 :=
  pushU64 input.protocol ++ pushU64 input.drainCycle ++ [UInt32.ofNat input.expected]

def submissionProtocol : Protocol SubmissionInput Bool where
  frame input := do
    let _ ← wordOfLength "expected submission count" input.expected
    let submitted ← wordOfLength "local submission count" input.locallySubmitted
    return input.semantic ++ [submitted, wordOfBool input.localSuccess]
  verdict participants input words gathered :=
    (range participants).foldlM (fun allSubmitted rank =>
      let frame := rankFrame gathered words.length rank
      if frame.take 5 ≠ input.semantic then
        .error (.mismatch "distributed submission transaction" rank)
      else if frame.getD 6 0 = 0 then
        .ok false
      else if frame.getD 6 0 = 1 then
        .ok (allSubmitted && decide ((frame.getD 5 0).toNat = input.expected))
      else
        .error (.mismatch "distributed submission status" rank)) true

variable (input : DispositionInput)

def DispositionInput.semantic : List UInt32 :=
  pushU64 input.protocol ++ pushU64 input.request.value ++ [input.cause.word, input.phase]

def dispositionProtocol : Protocol DispositionInput Bool where
  frame input := .ok (input.semantic ++ [wordOfBool input.localReady])
  verdict participants input words gathered :=
    (range participants).foldlM (fun allReady rank =>
      let frame := rankFrame gathered words.length rank
      if frame.take 6 ≠ input.semantic then
        .error (.mismatch "distributed cancellation transaction" rank)
      else if frame.getD 6 0 = 0 then
        .ok false
      else if frame.getD 6 0 = 1 then
        .ok allReady
      else
        .error (.mismatch "distributed cancellation readiness" rank)) true

def deadlineProtocol : Protocol DeadlineInput (List RequestId) where
  frame input := do
    if input.maxRequests < input.candidates.length then
      throw (.metadataOverflow "active deadline request count")
    let count ← wordOfLength "active deadline request count" input.candidates.length
    let slots ← wordOfLength "deadline request slots" input.maxRequests
    let records ← deadlineWords none input.candidates
    return (pushU64 input.protocol ++ [count, slots] ++ records).rightpad
      (4 + input.maxRequests * 3) 0
  verdict participants input words gathered := do
    let expired ← (range participants).foldlM (fun expired rank =>
      mergeDeadlineFrame words (rankFrame gathered words.length rank) input.candidates rank expired)
      (input.candidates.map fun _ => false)
    return (input.candidates.zip expired).filterMap fun ((request, _), expired) =>
      if expired then some request else none

variable (transport : Transport World)

theorem ofResult_bind {σ ε β γ : Type} (result : Except ε β) (next : β → Except ε γ) :
    (ofResult (result >>= next) : Effect σ ε γ) =
      ofResult result >>= fun value => ofResult (next value) := by
  apply ext_outcome
  intro state
  cases result with
  | error cause => rfl
  | ok value => rfl

theorem checkedParticipants_bind {γ : Type} (hr : transport.participantCount ≠ 0)
    (next : Nat → Effect World ConsensusError γ) :
    (ofResult (checkedParticipants transport) >>= next) = next transport.participantCount := by
  rw [checkedParticipants, if_neg hr]
  rfl

theorem agreeSubmissionStatusBounded_eq (input : SubmissionInput) :
    agreeSubmissionStatusBounded transport input.protocol input.drainCycle input.expected
      input.locallySubmitted input.localSuccess = submissionProtocol.exchange transport input := by
  unfold agreeSubmissionStatusBounded Protocol.exchange submissionProtocol wordOfLength
  by_cases he : input.expected < 2 ^ 32
  · by_cases hs : input.locallySubmitted < 2 ^ 32
    · simp only [he, hs]
      rfl
    · simp only [he, hs]
      rfl
  · simp only [he]
    rfl

theorem agreeDispositionStatusBounded_eq :
    agreeDispositionStatusBounded transport input.protocol input.request input.cause input.phase
      input.localReady = dispositionProtocol.exchange transport input := rfl

theorem agreeDeadlineCandidatesBounded_eq (input : DeadlineInput) :
    agreeDeadlineCandidatesBounded transport input.protocol input.candidates input.maxRequests =
      deadlineProtocol.exchange transport input := by
  unfold agreeDeadlineCandidatesBounded Protocol.exchange deadlineProtocol
  by_cases hr : input.maxRequests < input.candidates.length
  · simp only [hr]
    rfl
  · simp only [hr, if_false, ofResult_bind, bind_assoc]
    rfl

theorem validateScheduleBounded_eq (input : ScheduleInput) (hs : 2 ≤ transport.participantCount) :
    validateScheduleBounded transport input.plan input.drainCycle input.protocol =
      scheduleProtocol.exchange transport input := by
  have hr : transport.participantCount ≠ 0 := by omega
  have hc : transport.participantCount ≠ 1 := by omega
  unfold validateScheduleBounded validateEqualWordsBounded Protocol.exchange scheduleProtocol
    scheduleFrame
  simp only [checkedParticipants_bind transport hr, hc, ofResult_bind, bind_assoc]
  rfl

theorem resolveOutputCompletionsBounded_eq (input : CompletionInput)
    (hs : 2 ≤ transport.participantCount) :
    resolveOutputCompletionsBounded transport input.protocol input.completions =
      completionProtocol.exchange transport input := by
  have hr : transport.participantCount ≠ 0 := by omega
  have hc : transport.participantCount ≠ 1 := by omega
  unfold resolveOutputCompletionsBounded Protocol.exchange completionProtocol
  simp only [checkedParticipants_bind transport hr, hc, ofResult_bind, bind_assoc]
  rfl

theorem pushU64_injective : Function.Injective pushU64 := by
  intro left right hs
  simp only [pushU64, cons.injEq, and_true] at hs
  obtain ⟨low, hh⟩ := hs
  apply UInt64.toNat_inj.mp
  have low := congrArg toNat low
  have hh := congrArg toNat hh
  have hb := left.toNat_lt
  have hb' := right.toNat_lt
  simp at low hh
  omega

theorem pushU64_length (value : UInt64) : (pushU64 value).length = 2 := rfl

theorem WorkId.words_length (id : WorkId) : id.words.length = 4 := rfl

theorem WorkId.words_injective : Function.Injective WorkId.words := by
  intro left right hse
  obtain ⟨request, sequence⟩ := append_inj hse rfl
  have hsa := pushU64_injective request
  have hs := pushU64_injective sequence
  obtain ⟨⟨request⟩, sequence⟩ := left
  simp_all

theorem wordOfLength_eq_ok {subject : String} {length : Nat} {word : UInt32}
    (hf : wordOfLength subject length = .ok word) :
    length < 2 ^ 32 ∧ word = UInt32.ofNat length := by
  unfold wordOfLength at hf
  split at hf
  · rename_i hs
    cases hf
    exact ⟨hs, rfl⟩
  · cases hf

theorem ofNat_word_inj {left right : Nat} (hsm : left < 2 ^ 32) (hs' : right < 2 ^ 32)
    (hsa : UInt32.ofNat left = UInt32.ofNat right) : left = right := by
  have hs := congrArg UInt32.toNat hsa
  rwa [UInt32.toNat_ofNat_of_lt' hsm, UInt32.toNat_ofNat_of_lt' hs'] at hs

/-- The frames that `n` ranks send for their inputs, all of one length. -/
structure Gathers (protocol : Protocol Input α) {n : Nat} (inputs : Fin n → Input)
    (frames : Fin n → List UInt32) (length : Nat) : Prop where
  framed : ∀ i, protocol.frame (inputs i) = .ok (frames i)
  even : ∀ i, (frames i).length = length

def rankMajor {n : Nat} (frames : Fin n → List UInt32) : List UInt32 := (ofFn frames).flatten

variable {n length : Nat} {frames : Fin n → List UInt32}

theorem rankMajor_length (he : ∀ i, (frames i).length = length) :
    (rankMajor frames).length = length * n := by
  unfold rankMajor
  rw [length_flatten_even (by simpa using he), length_ofFn, mul_comm]

theorem rankFrame_rankMajor (he : ∀ i, (frames i).length = length) (i j : Fin n) :
    rankFrame (rankMajor frames) (frames i).length j = frames j := by
  rw [he i]
  apply take_drop_flatten
  · simpa using he
  · simp

theorem Protocol.unanimous {View : Type} {inputs : Fin n → Input} (view : Fin n → View)
    (ha : ∀ i j value, view i = view j →
      protocol.verdict n (inputs i) (frames i) (rankMajor frames) = .ok value →
      protocol.verdict n (inputs j) (frames j) (rankMajor frames) = .ok value)
    (hd : ∀ i j, view i ≠ view j →
      ∃ cause, protocol.verdict n (inputs i) (frames i) (rankMajor frames) = .error cause) :
    Unanimous fun i => protocol.verdict n (inputs i) (frames i) (rankMajor frames) :=
  unanimous_of_views ha hd

theorem scheduleProtocol_unanimous {inputs : Fin n → ScheduleInput}
    (hg : Gathers scheduleProtocol inputs frames length) :
    Unanimous fun i => scheduleProtocol.verdict n (inputs i) (frames i) (rankMajor frames) := by
  apply Protocol.unanimous frames
  · intro i j value hs
    simp only [scheduleProtocol, hs, imp_self]
  · intro i j hd
    refine forM_error (mem_range.mpr j.isLt) ⟨.mismatch "distributed work descriptors" j, ?_⟩
    rw [rankFrame_rankMajor hg.even, if_neg (Ne.symm hd)]

theorem submissionFrame_eq {input : SubmissionInput}
    (hf : submissionProtocol.frame input = .ok words) :
    input.expected < 2 ^ 32 ∧ words.take 5 = input.semantic := by
  obtain ⟨_, he, hf⟩ := bind_eq_ok.mp hf
  obtain ⟨_, -, hf⟩ := bind_eq_ok.mp hf
  cases hf
  exact ⟨(wordOfLength_eq_ok he).1, rfl⟩

theorem submissionProtocol_unanimous {inputs : Fin n → SubmissionInput}
    (hg : Gathers submissionProtocol inputs frames length) :
    Unanimous fun i => submissionProtocol.verdict n (inputs i) (frames i) (rankMajor frames) := by
  apply Protocol.unanimous fun i => (inputs i).semantic
  · intro i j value hs
    have hc : (inputs i).expected = (inputs j).expected := by
      apply ofNat_word_inj (submissionFrame_eq (hg.framed i)).1 (submissionFrame_eq (hg.framed j)).1
      exact cons.inj (append_inj_right hs rfl) |>.1
    simp only [submissionProtocol, hs, hc, hg.even, imp_self]
  · intro i j hd
    refine foldlM_error (fun _ _ _ _ _ => trivial) (mem_range.mpr j.isLt) ?_ trivial
    intro allSubmitted _
    refine ⟨.mismatch "distributed submission transaction" j, if_pos ?_⟩
    rw [rankFrame_rankMajor hg.even, (submissionFrame_eq (hg.framed j)).2]
    exact Ne.symm hd

theorem dispositionProtocol_unanimous {inputs : Fin n → DispositionInput}
    (hg : Gathers dispositionProtocol inputs frames length) :
    Unanimous fun i => dispositionProtocol.verdict n (inputs i) (frames i) (rankMajor frames) := by
  have hs : ∀ i, (frames i).take 6 = (inputs i).semantic := by
    intro i
    rw [← Except.ok.inj (hg.framed i)]
    rfl
  apply Protocol.unanimous fun i => (inputs i).semantic
  · intro i j value hsa
    simp only [dispositionProtocol, hsa, hg.even, imp_self]
  · intro i j hd
    refine foldlM_error (fun _ _ _ _ _ => trivial) (mem_range.mpr j.isLt) ?_ trivial
    intro allReady _
    refine ⟨.mismatch "distributed cancellation transaction" j, if_pos ?_⟩
    rw [rankFrame_rankMajor hg.even, hs]
    exact Ne.symm hd

variable (completion : LocalCompletion)

def completionRecord : List UInt32 :=
  completion.1.words ++ [completion.2.1.wire] ++ completion.2.2.toList

theorem completionRecord_length : (completionRecord completion).length = completionStride := by
  simp [completionRecord, WorkId.words_length, completionStride]

theorem even_records (completions : List LocalCompletion) :
    ∀ record ∈ completions.map completionRecord, record.length = completionStride := by
  intro record hl
  obtain ⟨completion, -, rfl⟩ := mem_map.mp hl
  exact completionRecord_length completion

variable {input : CompletionInput}

section

variable (hf : completionProtocol.frame input = .ok words)
include hf

theorem completionFrame_eq :
    input.completions.length < 2 ^ 32 ∧
      words = pushU64 input.protocol ++ [UInt32.ofNat input.completions.length] ++
        (input.completions.map completionRecord).flatten := by
  obtain ⟨_, hc, hf⟩ := bind_eq_ok.mp hf
  obtain ⟨hs, rfl⟩ := wordOfLength_eq_ok hc
  cases hf
  refine ⟨hs, ?_⟩
  rfl

theorem completionFrame_length :
    words.length = 3 + input.completions.length * completionStride := by
  rw [(completionFrame_eq hf).2, length_append,
    length_flatten_even (even_records input.completions)]
  simp [pushU64_length]

end

variable {index : Nat} {completion : LocalCompletion}

/-- The record of one transition, found by its position in the frame. -/
theorem completionFrame_record (hf : completionProtocol.frame input = .ok words)
    (ha : input.completions[index]? = some completion) :
    (words.drop (3 + index * completionStride)).take completionStride =
      completionRecord completion := by
  rw [(completionFrame_eq hf).2]
  have hs : 3 + index * completionStride =
      (pushU64 input.protocol ++ [UInt32.ofNat input.completions.length]).length +
        index * completionStride := rfl
  rw [hs, drop_length_add_append]
  exact take_drop_flatten (even_records input.completions) (by simp [ha])

variable {frame : List UInt32} {rank : Nat}

theorem checkCompletionFrame_eq_ok {completions : List LocalCompletion} :
    checkCompletionFrame words frame completions rank = .ok () ↔
      frame.take 3 = words.take 3 ∧ ∀ index id, (completions.map (·.1))[index]? = some id →
        (frame.drop (3 + index * completionStride)).take 4 = id.words ∧
          (frame.drop (3 + index * completionStride)).getD 4 0 ≤ failed.wire := by
  unfold checkCompletionFrame
  by_cases hh : frame.take 3 = words.take 3
  · simp only [hh, ne_eq, not_true_eq_false, true_and]
    refine Iff.trans forM_eq_ok ?_
    constructor
    · intro hc index id ha
      simp only [getElem?_map, Option.map_eq_some_iff] at ha
      obtain ⟨⟨id, status, output⟩, ha, rfl⟩ := ha
      have hp := hc ((id, status, output), index) (mem_zipIdx_iff_getElem?.mpr ha)
      split at hp
      · cases hp
      rename_i hi
      split at hp
      · cases hp
      · rename_i hk
        exact ⟨not_not.mp hi, UInt32.not_lt.mp hk⟩
    · rintro hc ⟨⟨id, status, output⟩, index⟩ hl
      have ha := mem_zipIdx_iff_getElem?.mp hl
      obtain ⟨hi, hk⟩ := hc index id (by simp [ha])
      simp only [hi, UInt32.not_lt.mpr hk]
      rfl
  · simp only [hh, ne_eq, not_false_eq_true, if_true, false_and, iff_false]
    intro hp
    cases hp

variable {resolutions : List CompletionResolution} {participants : Nat}

theorem completionVerdict_eq_ok :
    completionProtocol.verdict participants input words gathered = .ok resolutions ↔
      (∀ rank < participants, checkCompletionFrame words (rankFrame gathered words.length rank)
        input.completions rank = .ok ()) ∧ (range input.completions.length).mapM
        (resolveRecord gathered words.length participants) = .ok resolutions := by
  refine bind_eq_ok.trans ⟨?_, ?_⟩
  · rintro ⟨_, hc, hr⟩
    exact ⟨fun rank hb => forM_eq_ok.mp hc rank (mem_range.mpr hb), hr⟩
  · rintro ⟨hp, hr⟩
    exact ⟨⟨⟩, forM_eq_ok.mpr fun rank hl => hp rank (mem_range.mp hl), hr⟩

/-- What a rank compares with its peers: the header and the identities, in order. -/
def completionView (inputs : Fin n → CompletionInput) (frames : Fin n → List UInt32) (i : Fin n) :
    List UInt32 × List WorkId :=
  ((frames i).take 3, (inputs i).completions.map (·.1))

variable {inputs : Fin n → CompletionInput} {i : Fin n} {j : Fin n}

section

variable (hg : Gathers completionProtocol inputs frames length)
include hg

theorem completionView_of_checked
    (hp : checkCompletionFrame (frames i) (frames j) (inputs i).completions j = .ok ()) :
    completionView inputs frames i = completionView inputs frames j := by
  obtain ⟨hh, hr⟩ := checkCompletionFrame_eq_ok.mp hp
  have hsi : (inputs i).completions.length = (inputs j).completions.length := by
    have hf := completionFrame_length (hg.framed i)
    have hs := completionFrame_length (hg.framed j)
    rw [hg.even] at hf hs
    simp only [completionStride] at hf hs
    omega
  refine Prod.ext hh.symm (ext_getElem (by simp [completionView, hsi]) ?_)
  intro index hb hb'
  simp only [completionView, length_map] at hb hb'
  simp only [completionView, getElem_map]
  -- Both identities are read at the same place of the frame of rank `j`.
  obtain ⟨hsa, -⟩ := hr index ((inputs i).completions[index]).1 (by simp [hb])
  have hre := completionFrame_record (hg.framed j) (getElem?_eq_getElem hb')
  have hi := congrArg (take 4) hre
  rw [take_take] at hi
  exact WorkId.words_injective (hsa.symm.trans hi)

theorem completionProtocol_unanimous :
    Unanimous fun i => completionProtocol.verdict n (inputs i) (frames i) (rankMajor frames) := by
  apply Protocol.unanimous (completionView inputs frames)
  · intro i j resolutions hsa hr
    obtain ⟨hh, ids⟩ := Prod.mk.inj hsa
    rw [completionVerdict_eq_ok] at hr ⊢
    have hs : (inputs i).completions.length = (inputs j).completions.length := by
      simpa using congrArg List.length ids
    simp only [checkCompletionFrame_eq_ok, hh, ids, hs, hg.even] at hr ⊢
    exact hr
  · intro i j hd
    cases hde : completionProtocol.verdict n (inputs i) (frames i) (rankMajor frames) with
    | error cause => exact ⟨cause, rfl⟩
    | ok resolutions =>
      have hp := (completionVerdict_eq_ok.mp hde).1 j j.isLt
      rw [rankFrame_rankMajor hg.even] at hp
      exact absurd (completionView_of_checked hg hp) hd

/-- The status word and the output words of one rank for one transition. -/
theorem gathered_record (j : Fin n) (ha : (inputs j).completions[index]? = some completion) :
    (rankMajor frames).getD (j * length + (3 + index * completionStride) + 4) 0 =
        completion.2.1.wire ∧
      ((rankMajor frames).drop (j * length + (3 + index * completionStride) + 5)).take 8 =
        completion.2.2.toList := by
  have hr := completionFrame_record (hg.framed j) ha
  have hb : index < (inputs j).completions.length := (List.getElem?_eq_some_iff.mp ha).1
  have hs : length = 3 + (inputs j).completions.length * completionStride :=
    (hg.even j).symm.trans (completionFrame_length (hg.framed j))
  -- The record lies inside the frame of rank `j`, so it can be read from the gather directly.
  have hi : ((rankMajor frames).drop (j * length + (3 + index * completionStride))).take
      completionStride = completionRecord completion := by
    rw [← hr, ← rankFrame_rankMajor hg.even j j, rankFrame, hg.even, drop_take,
      take_take, drop_drop, min_eq_left]
    have hro : (index + 1) * completionStride ≤
        (inputs j).completions.length * completionStride := mul_le_mul_right _ hb
    rw [add_mul] at hro
    omega
  constructor
  · have hw := congrArg (fun words => words.getD 4 0) hi
    simpa [completionStride, completionRecord,
      WorkId.words, pushU64] using hw
  · have words := congrArg (fun words => (words.drop 5).take 8) hi
    have hf : completion.2.2.toList.take 8 = completion.2.2.toList := take_of_length_le (by simp)
    simpa [drop_take, take_take, completionStride, completionRecord, WorkId.words,
      pushU64, add_assoc, hf] using words

end

variable {status : CompletionObservation}

theorem CompletionObservation.wire_eq_complete (hs : status.wire ≠ incomplete.wire)
    (hso : status.wire ≠ failed.wire) : status = .complete := by
  cases status with
  | incomplete => exact absurd rfl hs
  | complete => rfl
  | failed => exact absurd rfl hso

theorem resolveRecord_complete
    (hc : resolveRecord gathered length participants index = .ok .complete) : ∀ rank < participants,
      gathered.getD (rank * length + (3 + index * completionStride) + 4) 0 ≠ failed.wire ∧
        gathered.getD (rank * length + (3 + index * completionStride) + 4) 0 ≠ incomplete.wire ∧
        (gathered.drop (rank * length + (3 + index * completionStride) + 5)).take 8 =
          (gathered.drop (3 + index * completionStride + 5)).take 8 := by
  unfold resolveRecord at hc
  dsimp only at hc
  generalize hsa : contains _ failed.wire = failed at hc
  generalize hs : contains _ incomplete.wire = incomplete at hc
  cases failed with
  | true => cases incomplete <;> cases hc
  | false =>
    cases incomplete with
    | true => cases hc
    | false =>
      have hu : ∀ rank < participants, gathered.getD
          (rank * length + (3 + index * completionStride) + 4) 0 ≠
            failed.wire := by
        simpa using hsa
      have hse : ∀ rank < participants, gathered.getD
          (rank * length + (3 + index * completionStride) + 4) 0 ≠
            incomplete.wire := by
        simpa using hs
      intro rank hb
      refine ⟨hu rank hb, hse rank hb, ?_⟩
      -- Rank 0 is the reference of the comparison, the others are compared with it.
      rcases Nat.eq_zero_or_pos rank with rfl | hp
      · simp
      · simp only [Bool.not_false, Bool.and_self] at hc
        obtain ⟨_, hco, -⟩ := bind_eq_ok.mp hc
        have hl : rank ∈ range' 1 (participants - 1) := by
          simp only [mem_range'_1]
          omega
        simpa using forM_eq_ok.mp hco rank hl

/-- A transition that a rank resolves as complete was reported complete by every rank, with one
output identity. -/
theorem completionVerdict_complete (hg : Gathers completionProtocol inputs frames length)
    (hrd : completionProtocol.verdict n (inputs i) (frames i) (rankMajor frames) =
      .ok resolutions) (hc : resolutions[index]? = some .complete) :
    ∃ id output, ∀ j, (inputs j).completions[index]? = some (id, .complete, output) := by
  obtain ⟨hch, hr2⟩ := completionVerdict_eq_ok.mp hrd
  obtain ⟨hb, hh⟩ := List.getElem?_eq_some_iff.mp hc
  have he := mapM_eq_ok.mp hr2
  have hco : resolutions.length = (inputs i).completions.length := by
    simpa using he.length_eq.symm
  have hre := he.get (by simpa [← hco] using hb) hb
  simp only [get_eq_getElem, getElem_range, hh, hg.even] at hre
  have hra := resolveRecord_complete hre
  have hv : ∀ j, completionView inputs frames i = completionView inputs frames j := by
    intro j
    have hp := hch j j.isLt
    rw [rankFrame_rankMajor hg.even] at hp
    exact completionView_of_checked hg hp
  obtain ⟨mine, hat⟩ : ∃ mine, (inputs i).completions[index]? = some mine :=
    ⟨_, getElem?_eq_getElem (hco ▸ hb)⟩
  -- The identities agree by the views, the statuses and the outputs by the resolution.
  have hr : ∀ j, ∃ completion, (inputs j).completions[index]? = some completion ∧
      completion.1 = mine.1 ∧ completion.2.1 = .complete ∧
      completion.2.2.toList = ((rankMajor frames).drop (3 + index * completionStride + 5)).take 8 := by
    intro j
    have ids := congrArg (fun view => view.2[index]?) (hv j)
    simp only [completionView, getElem?_map, hat] at ids
    obtain ⟨completion, ha, hsd⟩ := Option.map_eq_some_iff.mp ids.symm
    obtain ⟨hu, hs, output⟩ := hra j j.isLt
    obtain ⟨status, hw⟩ := gathered_record hg j ha
    rw [status] at hu hs
    exact ⟨completion, ha, hsd, wire_eq_complete hs hu, hw.symm.trans output⟩
  obtain ⟨own, han, -, -, ho⟩ := hr i
  refine ⟨mine.1, own.2.2, fun j => ?_⟩
  obtain ⟨⟨id, status, output⟩, ha, rfl, rfl, hsa⟩ := hr j
  have hou : output = own.2.2 := Vector.toList_inj.mp (hsa.trans ho.symm)
  rw [ha, hou]

def deadlineRecord (candidate : RequestId × Bool) : List UInt32 :=
  pushU64 candidate.1.value ++ [wordOfBool candidate.2]

variable {candidates : List (RequestId × Bool)}

theorem deadlineWords_eq {previous : Option RequestId}
    (hf : deadlineWords previous candidates = .ok words) :
    words = (candidates.map deadlineRecord).flatten := by
  induction candidates generalizing previous words with
  | nil =>
    cases hf
    rfl
  | cons candidate rest ih =>
    rw [deadlineWords] at hf
    split at hf
    · cases hf
    obtain ⟨words', hf', hf⟩ := bind_eq_ok.mp hf
    cases hf
    rw [ih hf']
    rfl

theorem even_deadlineRecords (candidates : List (RequestId × Bool)) :
    ∀ record ∈ candidates.map deadlineRecord, record.length = 3 := by
  intro record hl
  obtain ⟨candidate, -, rfl⟩ := mem_map.mp hl
  rfl

def DeadlineInput.header (input : DeadlineInput) : List UInt32 :=
  pushU64 input.protocol ++ [UInt32.ofNat input.candidates.length, UInt32.ofNat input.maxRequests]

theorem deadlineFrame_eq {input : DeadlineInput} (hf : deadlineProtocol.frame input = .ok words) :
    input.candidates.length ≤ input.maxRequests ∧ input.maxRequests < 2 ^ 32 ∧
      words = input.header ++ ((input.candidates.map deadlineRecord).flatten ++
        replicate ((input.maxRequests - input.candidates.length) * 3) 0) := by
  simp only [deadlineProtocol] at hf
  split at hf
  · cases hf
  rename_i hro
  obtain ⟨count, hc, hf⟩ := bind_eq_ok.mp hf
  obtain ⟨slots, hs, hf⟩ := bind_eq_ok.mp hf
  obtain ⟨records, hfr, hf⟩ := bind_eq_ok.mp hf
  cases hf
  obtain ⟨-, rfl⟩ := wordOfLength_eq_ok hc
  obtain ⟨hsm, rfl⟩ := wordOfLength_eq_ok hs
  obtain rfl := deadlineWords_eq hfr
  have hsi := length_flatten_even (even_deadlineRecords input.candidates)
  rw [length_map] at hsi
  refine ⟨not_lt.mp hro, hsm, ?_⟩
  have hp : 4 + input.maxRequests * 3 - (input.header ++
      (input.candidates.map deadlineRecord).flatten).length =
        (input.maxRequests - input.candidates.length) * 3 := by
    simp only [DeadlineInput.header, length_append, pushU64_length, length_cons, length_nil]
    omega
  rw [← hp]
  rfl

theorem deadlineFrame_header {input : DeadlineInput}
    (hf : deadlineProtocol.frame input = .ok words) : words.take 4 = input.header := by
  rw [(deadlineFrame_eq hf).2.2]
  rfl

variable {candidate : RequestId × Bool}

theorem deadlineFrame_record {input : DeadlineInput} (hf : deadlineProtocol.frame input = .ok words)
    (ha : input.candidates[index]? = some candidate) :
    (words.drop (4 + index * 3)).take 3 = deadlineRecord candidate := by
  rw [(deadlineFrame_eq hf).2.2]
  have hs : 4 + index * 3 = input.header.length + index * 3 := rfl
  rw [hs, drop_length_add_append]
  have hb := (List.getElem?_eq_some_iff.mp ha).1
  have hsi := length_flatten_even (even_deadlineRecords input.candidates)
  rw [length_map] at hsi
  rw [drop_append_of_le_length (by omega), take_append_of_le_length (by rw [length_drop]; omega)]
  exact take_drop_flatten (even_deadlineRecords input.candidates) (by simp [ha])

def mergeDeadlineRecord (frame : List UInt32) (rank : Nat) (request : RequestId) (index : Nat)
    (expired : Bool) : Except ConsensusError Bool := do
  let record := frame.drop (4 + index * 3)
  if record.take 2 ≠ pushU64 request.value then
    throw (.mismatch "distributed deadline request identity" rank)
  if record.getD 2 0 = 0 then
    pure expired
  else if record.getD 2 0 = 1 then
    pure true
  else
    throw (.mismatch "distributed deadline request status" rank)

theorem mergeDeadlineFrame_eq (words frame : List UInt32) (candidates : List (RequestId × Bool))
    (rank : Nat) (expired : List Bool) :
    mergeDeadlineFrame words frame candidates rank expired = (do
      if frame.take 4 ≠ words.take 4 then
        throw (.mismatch "distributed deadline request set header" rank)
      let merged ← ((candidates.map (·.1)).zipIdx.zip expired).mapM fun item =>
        mergeDeadlineRecord frame rank item.1.1 item.1.2 item.2
      if (frame.drop (4 + candidates.length * 3)).any (· ≠ 0) then
        throw (.mismatch "distributed deadline request padding" rank)
      pure merged) := by
  have hr : ((candidates.map (·.1)).zipIdx.zip expired).mapM (fun item =>
      mergeDeadlineRecord frame rank item.1.1 item.1.2 item.2) =
      (candidates.zipIdx.zip expired).mapM fun item =>
        mergeDeadlineRecord frame rank item.1.1.1 item.1.2 item.2 := by
    rw [zipIdx_map, zip_map_left, mapM_map]
    rfl
  rw [hr]
  rfl

theorem mergeDeadlineFrame_length
    {expired merged : List Bool} (hs : expired.length = candidates.length)
    (hr : mergeDeadlineFrame words frame candidates rank expired = .ok merged) :
    merged.length = candidates.length := by
  simp only [mergeDeadlineFrame_eq] at hr
  split at hr
  · cases hr
  obtain ⟨results, hm, hr⟩ := bind_eq_ok.mp hr
  split at hr
  · cases hr
  · cases hr
    rw [← (mapM_eq_ok.mp hm).length_eq]
    simp [hs]

/-- What a rank compares with its peers: the header and the requests, in order. -/
def deadlineView (inputs : Fin n → DeadlineInput) (i : Fin n) : List UInt32 × List RequestId :=
  ((inputs i).header, (inputs i).candidates.map (·.1))

variable {inputs : Fin n → DeadlineInput}

theorem deadlineHeader_length (hg : Gathers deadlineProtocol inputs frames length)
    (hh : (inputs i).header = (inputs j).header) :
    (inputs i).candidates.length = (inputs j).candidates.length := by
  obtain ⟨hr, hs, -⟩ := deadlineFrame_eq (hg.framed i)
  obtain ⟨hr', hs', -⟩ := deadlineFrame_eq (hg.framed j)
  have hc := append_inj_right hh rfl
  exact ofNat_word_inj (by omega) (by omega) (cons.inj hc).1

/-- The verdict of a deadline exchange, as a function of the shared words and the identities. -/
theorem deadlineVerdict_eq (participants : Nat) (input : DeadlineInput)
    (words gathered : List UInt32) :
    deadlineProtocol.verdict participants input words gathered = (do
      let expired ← (range participants).foldlM (fun expired rank =>
        mergeDeadlineFrame words (rankFrame gathered words.length rank) input.candidates rank
          expired) ((input.candidates.map (·.1)).map fun _ => false)
      pure (((input.candidates.map (·.1)).zip expired).filterMap fun item =>
        if item.2 then some item.1 else none)) := by
  have hs : ∀ expired : List Bool,
      ((input.candidates.map (·.1)).zip expired).filterMap (fun item =>
        if item.2 then some item.1 else none) =
      (input.candidates.zip expired).filterMap fun item =>
        if item.2 then some item.1.1 else none := by
    intro expired
    rw [zip_map_left, filterMap_map]
    rfl
  simp only [hs, map_map]
  rfl

theorem mergeDeadlineRecord_refused {request : RequestId}
    (expired : Bool) (hr : (frame.drop (4 + index * 3)).take 3 = deadlineRecord candidate)
    (hd : request ≠ candidate.1) :
    ∃ cause, mergeDeadlineRecord frame rank request index expired = .error cause := by
  have hi := congrArg (take 2) hr
  rw [take_take] at hi
  have ho : (frame.drop (4 + index * 3)).take 2 ≠ pushU64 request.value := by
    intro hs
    have hv : request.value = candidate.1.value := pushU64_injective (hs.symm.trans hi)
    apply hd
    exact congrArg RequestId.mk hv
  unfold mergeDeadlineRecord
  simp only [ne_eq, ho, not_false_eq_true]
  exact ⟨_, rfl⟩

section

variable (hg : Gathers deadlineProtocol inputs frames length)
include hg

/-- The frame of a rank with another view is refused, whatever was merged before. -/
theorem mergeDeadlineFrame_refused
    (hd : deadlineView inputs i ≠ deadlineView inputs j) {expired : List Bool}
    (hsi : expired.length = (inputs i).candidates.length) :
    ∃ cause, mergeDeadlineFrame (frames i) (frames j) (inputs i).candidates j expired =
      .error cause := by
  rw [mergeDeadlineFrame_eq, deadlineFrame_header (hg.framed i), deadlineFrame_header (hg.framed j)]
  by_cases hh : (inputs j).header = (inputs i).header
  · have hs := deadlineHeader_length hg hh
    have ids : (inputs i).candidates.map (·.1) ≠ (inputs j).candidates.map (·.1) :=
      fun hsa => hd (Prod.ext hh.symm hsa)
    obtain ⟨index, mine, other, hat, har, hdi⟩ := exists_getElem?_ne (by simp [hs]) ids
    obtain ⟨candidate, ha, rfl⟩ : ∃ candidate,
        (inputs j).candidates[index]? = some candidate ∧ candidate.1 = other := by
      simpa using har
    have hb : index < expired.length := by
      rw [hsi]
      simpa using (List.getElem?_eq_some_iff.mp hat).1
    have hl : ((mine, index), expired[index]) ∈
        ((inputs i).candidates.map (·.1)).zipIdx.zip expired := by
      apply mem_iff_getElem?.mpr
      refine ⟨index, ?_⟩
      rw [getElem?_zip_eq_some]
      exact ⟨by simp [hat], by simp⟩
    have hf : ∃ cause, (((inputs i).candidates.map (·.1)).zipIdx.zip expired).mapM
        (fun item => mergeDeadlineRecord (frames j) j item.1.1 item.1.2 item.2) = .error cause :=
      mapM_error hl (mergeDeadlineRecord_refused expired[index]
        (deadlineFrame_record (hg.framed j) ha) hdi)
    obtain ⟨cause, hf⟩ := hf
    simp only [hh, ne_eq, not_true_eq_false]
    exact ⟨cause, by rw [hf]; rfl⟩
  · simp only [hh, ne_eq, not_false_eq_true]
    exact ⟨_, rfl⟩

theorem deadlineProtocol_unanimous :
    Unanimous fun i => deadlineProtocol.verdict n (inputs i) (frames i) (rankMajor frames) := by
  apply Protocol.unanimous (deadlineView inputs)
  · intro i j value hsa
    obtain ⟨hh, ids⟩ := Prod.mk.inj hsa
    have hsi := deadlineHeader_length hg hh
    simp only [deadlineVerdict_eq, mergeDeadlineFrame_eq, deadlineFrame_header (hg.framed i),
      deadlineFrame_header (hg.framed j), hh, ids, hsi, hg.even, imp_self]
  · intro i j hd
    have hk : ∀ (expired : List Bool) (rank : Nat) (merged : List Bool),
        expired.length = (inputs i).candidates.length →
        mergeDeadlineFrame (frames i) (rankFrame (rankMajor frames) (frames i).length rank)
          (inputs i).candidates rank expired = .ok merged →
        merged.length = (inputs i).candidates.length :=
      fun _ _ _ hs hr => mergeDeadlineFrame_length hs hr
    have hfa : ∀ expired : List Bool, expired.length = (inputs i).candidates.length →
        ∃ cause, mergeDeadlineFrame (frames i) (rankFrame (rankMajor frames) (frames i).length j)
          (inputs i).candidates j expired = .error cause := by
      intro expired hs
      rw [rankFrame_rankMajor hg.even]
      exact mergeDeadlineFrame_refused hg hd hs
    have hst : (((inputs i).candidates.map (·.1)).map fun _ => false).length =
        (inputs i).candidates.length := by simp
    obtain ⟨cause, hf⟩ := foldlM_error hk (mem_range.mpr j.isLt) hfa hst
    rw [deadlineVerdict_eq]
    exact ⟨cause, by rw [hf]; rfl⟩

end

def workRecord (work : ScheduledWork) : List UInt32 :=
  work.id.words ++ [UInt32.ofNat work.descriptor.length] ++ work.descriptor

theorem scheduleWords_from {plan : List ScheduledWork} {initial : List UInt32}
    (hf : plan.foldlM (fun words work => do
      let length ← wordOfLength "work descriptor length" work.descriptor.length
      pure (words ++ work.id.words ++ [length] ++ work.descriptor)) initial = .ok words) :
    (∀ work ∈ plan, work.descriptor.length < 2 ^ 32) ∧
      words = initial ++ (plan.map workRecord).flatten := by
  induction plan generalizing initial with
  | nil =>
    cases hf
    simp
  | cons work rest ih =>
    obtain ⟨_, hst, hf⟩ := bind_eq_ok.mp hf
    obtain ⟨length, hs, hst⟩ := bind_eq_ok.mp hst
    cases hst
    obtain ⟨hsm, rfl⟩ := wordOfLength_eq_ok hs
    obtain ⟨ho, rfl⟩ := ih hf
    refine ⟨forall_mem_cons.mpr ⟨hsm, ho⟩, ?_⟩
    simp [workRecord]

/-- A record tells where it ends, by the length it carries. -/
theorem workRecord_append_inj {work work' : ScheduledWork} {rest rest' : List UInt32}
    (hsm : work.descriptor.length < 2 ^ 32) (hs' : work'.descriptor.length < 2 ^ 32)
    (hs : workRecord work ++ rest = workRecord work' ++ rest') : work = work' ∧ rest = rest' := by
  unfold workRecord at hs
  simp only [append_assoc, singleton_append] at hs
  obtain ⟨id, ho⟩ := append_inj hs (by simp only [WorkId.words_length])
  obtain ⟨hsi, ho⟩ := cons.inj ho
  obtain ⟨hd, ht⟩ := append_inj ho (ofNat_word_inj hsm hs' hsi)
  obtain ⟨own, words⟩ := work
  cases hd
  cases WorkId.words_injective id
  exact ⟨rfl, ht⟩

theorem workRecords_append_inj {plan plan' : List ScheduledWork} {rest rest' : List UInt32}
    (hsm : ∀ work ∈ plan, work.descriptor.length < 2 ^ 32)
    (hs' : ∀ work ∈ plan', work.descriptor.length < 2 ^ 32) (hs : plan.length = plan'.length)
    (hsa : (plan.map workRecord).flatten ++ rest = (plan'.map workRecord).flatten ++ rest') :
    plan = plan' ∧ rest = rest' := by
  induction plan generalizing plan' with
  | nil =>
    obtain rfl := length_eq_zero_iff.mp hs.symm
    exact ⟨rfl, by simpa using hsa⟩
  | cons work others ih =>
    cases plan' with
    | nil => cases hs
    | cons work' others' =>
      obtain ⟨hf, hr⟩ := forall_mem_cons.mp hsm
      obtain ⟨hf', hr'⟩ := forall_mem_cons.mp hs'
      simp only [map_cons, flatten_cons, append_assoc] at hsa
      obtain ⟨rfl, ht⟩ := workRecord_append_inj hf hf' hsa
      obtain ⟨rfl, he⟩ := ih hr hr' (succ.inj hs) ht
      exact ⟨rfl, he⟩

theorem scheduleFrame_eq {input : ScheduleInput} (hf : scheduleFrame input = .ok words) :
    input.plan.length < 2 ^ 32 ∧ (∀ work ∈ input.plan, work.descriptor.length < 2 ^ 32) ∧
      words = [UInt32.ofNat input.plan.length] ++ pushU64 input.drainCycle ++
        pushU64 input.protocol ++ (input.plan.map workRecord).flatten := by
  obtain ⟨length, hs, hf⟩ := bind_eq_ok.mp hf
  obtain ⟨body, he, hf⟩ := bind_eq_ok.mp hf
  cases hf
  obtain ⟨hsm, rfl⟩ := wordOfLength_eq_ok hs
  obtain ⟨hfi, rfl⟩ := scheduleWords_from he
  exact ⟨hsm, hfi, by simp⟩

/-- A schedule frame is self-delimiting: whatever follows it, the input can be read back. -/
theorem scheduleFrame_append_inj {input input' : ScheduleInput} {words' rest rest' : List UInt32}
    (hf : scheduleFrame input = .ok words) (hf' : scheduleFrame input' = .ok words')
    (hs : words ++ rest = words' ++ rest') : input = input' ∧ rest = rest' := by
  obtain ⟨hsm, hfi, rfl⟩ := scheduleFrame_eq hf
  obtain ⟨hs', hfi', rfl⟩ := scheduleFrame_eq hf'
  simp only [append_assoc, singleton_append] at hs
  obtain ⟨hsi, ho⟩ := cons.inj hs
  obtain ⟨hc, ho⟩ := append_inj ho rfl
  obtain ⟨hp, ho⟩ := append_inj ho rfl
  obtain ⟨hpl, ht⟩ := workRecords_append_inj hfi hfi' (ofNat_word_inj hsm hs' hsi) ho
  cases input
  cases hpl
  cases pushU64_injective hc
  cases pushU64_injective hp
  exact ⟨rfl, ht⟩

theorem scheduleVerdict_eq_ok {inputs : Fin n → ScheduleInput}
    (hg : Gathers scheduleProtocol inputs frames length) (i : Fin n) :
    scheduleProtocol.verdict n (inputs i) (frames i) (rankMajor frames) = .ok () ↔
      ∀ j, inputs j = inputs i := by
  refine Iff.trans forM_eq_ok ?_
  constructor
  · intro hc j
    have hp := hc j (mem_range.mpr j.isLt)
    rw [rankFrame_rankMajor hg.even] at hp
    have hs : frames j = frames i := by
      by_contra hd
      rw [if_neg hd] at hp
      cases hp
    exact (scheduleFrame_append_inj (hg.framed j) (hg.framed i) (congrArg (· ++ []) hs)).1
  · intro hs rank hl
    have hse : frames ⟨rank, mem_range.mp hl⟩ = frames i := by
      apply Except.ok.inj (ε := ConsensusError)
      rw [← hg.framed, ← hg.framed, hs]
    rw [← hse, rankFrame_rankMajor hg.even _ ⟨rank, mem_range.mp hl⟩, if_pos rfl]

/-- A topology in which every rank receives the rank-major concatenation of the frames. -/
structure Answers (transport : Fin n → Transport World) (world : Fin n → World)
    (frames : Fin n → List UInt32) : Prop where
  ranks : ∀ i, (transport i).participantCount = n
  answered : ∀ i,
    ((transport i).allGatherWords (frames i) (world i)).1 = .completed (rankMajor frames)
  representable : (rankMajor frames).length ≤ usizeMax

def returned (world : Fin n → World) (evaluation : Fin n → Effect World ConsensusError α)
    (i : Fin n) : Except (Fault ConsensusError) α :=
  ((evaluation i).outcome (world i)).1

section Topology

variable {transport : Fin n → Transport World} {world : Fin n → World}

theorem Protocol.returned_exchange {inputs : Fin n → Input}
    (hg : Gathers protocol inputs frames length) (ha : Answers transport world frames) :
    returned world (fun i => protocol.exchange (transport i) (inputs i)) =
      fun i => (protocol.verdict n (inputs i) (frames i) (rankMajor frames)).mapError .error := by
  funext i
  have hs : (rankMajor frames).length = (frames i).length * (transport i).participantCount := by
    rw [ha.ranks, hg.even, rankMajor_length hg.even]
  have hso : (transport i).participantCount ≠ 0 := by
    rw [ha.ranks]
    exact ne_of_gt (lt_of_le_of_lt (zero_le _) i.isLt)
  have ho := Protocol.exchange_outcome hso (hg.framed i)
    (Prod.ext (ha.answered i) rfl) hs ha.representable
  rw [ha.ranks] at ho
  exact congrArg Prod.fst ho

theorem Protocol.returned_exchange_eq_ok {inputs : Fin n → Input}
    (hg : Gathers protocol inputs frames length) (ha : Answers transport world frames) {value : α} :
    returned world (fun i => protocol.exchange (transport i) (inputs i)) i = .ok value ↔
      protocol.verdict n (inputs i) (frames i) (rankMajor frames) = .ok value := by
  rw [Protocol.returned_exchange hg ha]
  exact mapError_eq_ok

theorem Protocol.unanimous_exchange {inputs : Fin n → Input}
    (hg : Gathers protocol inputs frames length) (ha : Answers transport world frames)
    (hu : Unanimous fun i => protocol.verdict n (inputs i) (frames i) (rankMajor frames)) :
    Unanimous (returned world fun i => protocol.exchange (transport i) (inputs i)) := by
  rw [Protocol.returned_exchange hg ha]
  exact hu.mapError _

theorem unanimous_alone {ε : Type} (results : Fin 1 → Except ε α) : Unanimous results := by
  cases ho : results 0 with
  | error cause => exact .inl fun i => ⟨cause, Subsingleton.elim 0 i ▸ ho⟩
  | ok value => exact .inr ⟨value, fun i => Subsingleton.elim 0 i ▸ ho⟩

theorem validateScheduleBounded_alone {inputs : Fin 1 → ScheduleInput} {frames : Fin 1 → List UInt32}
    {transport : Fin 1 → Transport World} {world : Fin 1 → World}
    (hg : Gathers scheduleProtocol inputs frames length)
    (ha : Answers transport world frames) (i : Fin 1) :
    returned world (fun i => validateScheduleBounded (transport i) (inputs i).plan
      (inputs i).drainCycle (inputs i).protocol) i = .ok () := by
  obtain ⟨size, hs, hf⟩ := bind_eq_ok.mp (hg.framed i)
  obtain ⟨body, he, -⟩ := bind_eq_ok.mp hf
  have hso : (transport i).participantCount ≠ 0 := by simp [ha.ranks]
  simp only [returned, validateScheduleBounded, validateEqualWordsBounded,
    checkedParticipants_bind _ hso, ha.ranks, hs, he]
  rfl

theorem resolveOutputCompletionsBounded_alone {inputs : Fin 1 → CompletionInput}
    {transport : Fin 1 → Transport World} {world : Fin 1 → World}
    (hr : ∀ i, (transport i).participantCount = 1) (i : Fin 1) :
    returned world (fun i => resolveOutputCompletionsBounded (transport i) (inputs i).protocol
      (inputs i).completions) i = .ok ((inputs i).completions.map fun item => item.2.1.alone) := by
  have hs : (transport i).participantCount ≠ 0 := by simp [hr]
  simp only [returned, resolveOutputCompletionsBounded, checkedParticipants_bind _ hs, hr]
  rfl

theorem CompletionObservation.alone_eq_complete
    (hc : status.alone = .complete) : status = .complete := by
  cases status with
  | complete => rfl
  | incomplete => cases hc
  | failed => cases hc

end Topology

/-- Every consensus primitive is unanimous over ranks that receive the same gather: all of them
fail, or all return the same value. A schedule is accepted exactly when all ranks sent the same one,
and a transition is resolved as complete only when all ranks reported it complete with the same
output words. -/
theorem consensus_unanimous {n length : Nat} {frames : Fin n → List UInt32}
    {transport : Fin n → Transport World} {world : Fin n → World}
    (answers : Answers transport world frames) :
    (∀ inputs : Fin n → ScheduleInput, Gathers scheduleProtocol inputs frames length →
      Unanimous (returned world fun i => validateScheduleBounded (transport i) (inputs i).plan
        (inputs i).drainCycle (inputs i).protocol) ∧
      ∀ i, returned world (fun i => validateScheduleBounded (transport i) (inputs i).plan
        (inputs i).drainCycle (inputs i).protocol) i = .ok () ↔ ∀ j, inputs j = inputs i) ∧
    (∀ inputs : Fin n → CompletionInput, Gathers completionProtocol inputs frames length →
      Unanimous (returned world fun i => resolveOutputCompletionsBounded (transport i)
        (inputs i).protocol (inputs i).completions) ∧
      ∀ (i : Fin n) (resolutions : List CompletionResolution) (index : Nat),
        returned world (fun i => resolveOutputCompletionsBounded (transport i)
          (inputs i).protocol (inputs i).completions) i = .ok resolutions →
        resolutions[index]? = some .complete →
        ∃ id output, ∀ j, (inputs j).completions[index]? = some (id, .complete, output)) ∧
    (∀ inputs : Fin n → SubmissionInput, Gathers submissionProtocol inputs frames length →
      Unanimous (returned world fun i => agreeSubmissionStatusBounded (transport i)
        (inputs i).protocol (inputs i).drainCycle (inputs i).expected (inputs i).locallySubmitted
        (inputs i).localSuccess)) ∧
    (∀ inputs : Fin n → DispositionInput, Gathers dispositionProtocol inputs frames length →
      Unanimous (returned world fun i => agreeDispositionStatusBounded (transport i)
        (inputs i).protocol (inputs i).request (inputs i).cause (inputs i).phase
        (inputs i).localReady)) ∧
    (∀ inputs : Fin n → DeadlineInput, Gathers deadlineProtocol inputs frames length →
      Unanimous (returned world fun i => agreeDeadlineCandidatesBounded (transport i)
        (inputs i).protocol (inputs i).candidates (inputs i).maxRequests)) := by
  refine ⟨fun inputs hg => ?_, fun inputs hg => ?_, fun inputs hg => ?_,
    fun inputs hg => ?_, fun inputs hg => ?_⟩
  · rcases lt_trichotomy n 1 with hn | rfl | hs
    · obtain rfl := lt_one_iff.mp hn
      exact ⟨.inl fun i => i.elim0, fun i => i.elim0⟩
    · refine ⟨unanimous_alone _, fun i => ?_⟩
      simp only [validateScheduleBounded_alone hg answers, true_iff]
      exact fun j => congrArg inputs (Subsingleton.elim j i)
    · have he : ∀ i, validateScheduleBounded (transport i) (inputs i).plan
          (inputs i).drainCycle (inputs i).protocol =
            scheduleProtocol.exchange (transport i) (inputs i) :=
        fun i => validateScheduleBounded_eq _ _ (answers.ranks i ▸ hs)
      simp only [he]
      refine ⟨Protocol.unanimous_exchange hg answers (scheduleProtocol_unanimous hg), fun i => ?_⟩
      exact (Protocol.returned_exchange_eq_ok hg answers).trans (scheduleVerdict_eq_ok hg i)
  · rcases lt_trichotomy n 1 with hn | rfl | hs
    · obtain rfl := lt_one_iff.mp hn
      exact ⟨.inl fun i => i.elim0, fun i => i.elim0⟩
    · refine ⟨unanimous_alone _, fun i resolutions index hr hc => ?_⟩
      rw [resolveOutputCompletionsBounded_alone answers.ranks] at hr
      cases hr
      obtain ⟨⟨id, status, output⟩, ha, hal⟩ :=
        Option.map_eq_some_iff.mp ((getElem?_map ..).symm.trans hc)
      obtain rfl := alone_eq_complete hal
      exact ⟨id, output, fun j => Subsingleton.elim i j ▸ ha⟩
    · have he : ∀ i, resolveOutputCompletionsBounded (transport i) (inputs i).protocol
          (inputs i).completions = completionProtocol.exchange (transport i) (inputs i) :=
        fun i => resolveOutputCompletionsBounded_eq _ _ (answers.ranks i ▸ hs)
      simp only [he]
      refine ⟨Protocol.unanimous_exchange hg answers (completionProtocol_unanimous hg),
        fun i resolutions index hr hc => ?_⟩
      exact completionVerdict_complete hg ((Protocol.returned_exchange_eq_ok hg answers).mp hr) hc
  · simp only [agreeSubmissionStatusBounded_eq]
    exact Protocol.unanimous_exchange hg answers (submissionProtocol_unanimous hg)
  · simp only [agreeDispositionStatusBounded_eq]
    exact Protocol.unanimous_exchange hg answers (dispositionProtocol_unanimous hg)
  · simp only [agreeDeadlineCandidatesBounded_eq]
    exact Protocol.unanimous_exchange hg answers (deadlineProtocol_unanimous hg)

/-- A transport of `n` ranks whose gather returns the given words. -/
def answering (n : Nat) (gathered : List UInt32) : Transport Unit where
  participantCount := n
  allGatherWords _ world := (.completed gathered, world)

/-- Two ranks that schedule the same transition under different descriptors. -/
def splitSchedules (i : Fin 2) : ScheduleInput where
  plan := [{ id := ⟨⟨5⟩, 1⟩, descriptor := [ofNat i] }]
  drainCycle := 3
  protocol := 9

def splitFrames (i : Fin 2) : List UInt32 := [1, 3, 0, 9, 0, 5, 0, 1, 0, 1, ofNat i]

theorem consensus_unanimous_split :
    Unanimous (returned (fun _ => ()) fun i => validateScheduleBounded
      (answering 2 (rankMajor splitFrames)) (splitSchedules i).plan (splitSchedules i).drainCycle
      (splitSchedules i).protocol) ∧ returned (fun _ => ()) (fun i => validateScheduleBounded
      (answering 2 (rankMajor splitFrames)) (splitSchedules i).plan (splitSchedules i).drainCycle
      (splitSchedules i).protocol) 0 ≠ .ok () := by
  have han : Answers (fun _ : Fin 2 => answering 2 (rankMajor splitFrames)) (fun _ => ())
      splitFrames :=
    ⟨fun _ => rfl, fun _ => rfl, by decide⟩
  have hg : Gathers scheduleProtocol splitSchedules splitFrames 11 := ⟨by decide, fun _ => rfl⟩
  have ha := (consensus_unanimous han).1 splitSchedules hg
  refine ⟨ha.1, fun hac => ?_⟩
  have hs := (ha.2 0).mp hac
  exact absurd ((hs 0).trans (hs 1).symm) (by decide)

end Eredu.Scheduling
