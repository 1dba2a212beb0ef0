import Eredu.Streaming.Cursor

/-!
# One terminal event, last and truthful

`Orderly` holds of a generation after any number of steps: the log is in order, the
token budget is kept and a reported reason is the reason of the one terminal event.
Within a step it is refined by what has been delivered: `Active` names the terminal
event so far and whether a stop was found in the flush, `Flowing` adds an open and
drained stream, and `Live` an open sequence, which is how every step begins.
-/

namespace Eredu.Streaming

open List Observation CommittedTokenPipeline
open Speculation (FinishReason GenerationError GenerationSequence TokenId TokenTerminalSignals)
open SemanticStream (Running Continues)
open Effect

/-- What may come after what. Nothing is delivered or requested after a terminal event or a failed
step, and nothing is requested after a cancellation was seen. -/
def MayFollow {φ : Type} : Observation φ → Observation φ → Prop
  | .delivered (.finished _), .delivered _ => False
  | .delivered (.finished _), .requested => False
  | .failed, .delivered _ => False
  | .failed, .requested => False
  | .cancellation, .requested => False
  | _, _ => True

namespace Observation

variable {φ : Type}

def finish? : Observation φ → Option FinishReason
  | delivered (.finished reason) => some reason
  | _ => none

def finishes (log : List (Observation φ)) : List FinishReason := log.filterMap finish?

/-- Exactly one terminal event, with the reason given unless the flush completed a stop. -/
def Truthful (reason : FinishReason) (log : List (Observation φ)) : Prop :=
  ∃ told, finishes log = [told] ∧ (told = reason ↔ finishing true ∉ log)

@[simp] theorem finishes_append (first second : List (Observation φ)) :
    finishes (first ++ second) = finishes first ++ finishes second :=
  filterMap_append

@[simp] theorem finishes_cancellations (n : Nat) :
    finishes (List.replicate n (cancellation : Observation φ)) = [] := by
  unfold finishes
  rw [filterMap_replicate_of_none rfl]

@[simp] theorem finishes_parts (written : List φ) :
    finishes (written.map fun content => delivered (.part content)) = [] := by
  unfold finishes
  rw [filterMap_map]
  exact filterMap_eq_nil_iff.mpr fun _ _ => rfl

theorem length_finishes_le {log : List (Observation φ)} (ho : log.Pairwise MayFollow) :
    (finishes log).length ≤ 1 := by
  have ha : (finishes log).Pairwise fun _ _ => False := by
    refine List.Pairwise.filterMap finish? ?_ ho
    intro first second hfs reason hfo other hf
    unfold finish? at hfo hf
    split at hfo
    · split at hf
      · exact hfs
      · cases hf
    · cases hfo
  match finishes log, ha with
  | [], _ => exact Nat.zero_le 1
  | [_], _ => exact Nat.le_refl 1
  | _ :: _ :: _, ha => exact (rel_of_pairwise_cons ha mem_cons_self).elim

end Observation

open Observation (finishes Truthful)

namespace Generation

variable {δ π φ ω S D K α : Type} {limit : Nat} {ended : Option FinishReason} {flushed : Bool}
  {generation before after : Generation δ π φ ω}

variable (limit) (generation)

structure Orderly : Prop where
  ordered : generation.log.Pairwise MayFollow
  observed : .cancellation ∈ generation.log → generation.cancelled = true
  limited : generation.cursor.sequence.maxTokens = limit
  budget : generation.cursor.sequence.tokens.length ≤ limit
  truthful : ∀ reason, generation.cursor.finishReason = some reason → Truthful reason generation.log

/-- The cursor has not ended; `ended` is the reason of the terminal event delivered so far. -/
structure Active (ended : Option FinishReason) (flushed : Bool)
    (generation : Generation δ π φ ω) : Prop extends Orderly limit generation where
  unended : generation.cursor.finishReason = none
  unfailed : generation.cursor.failed = false
  unfenced : .failed ∉ generation.log
  finishes : finishes generation.log = ended.toList
  flushes : .finishing true ∈ generation.log ↔ flushed = true

/-- Everything the open stream has written is delivered. -/
structure Flowing : Prop extends Active limit none false generation where
  running : generation.pipeline.parser.Running
  drained : generation.pipeline.parser.events = []

variable (sequence : GenerationSequence)

def Uncommitted : Prop :=
  sequence.finishReason = none ∧ sequence.WithinBudget

structure Live : Prop extends Flowing limit generation where
  uncommitted : Uncommitted generation.cursor.sequence

def Concluded : Prop :=
  Orderly limit generation ∧ generation.cursor.finishReason.isSome

/-- How a step that returns leaves a generation. -/
def Settled : Prop :=
  Live limit generation ∨ Concluded limit generation

variable {generation}

/-- How a step that fails leaves it. -/
def Fallen (fault : Fault α) (generation : Generation δ π φ ω) : Prop :=
  Reported fault generation ∧ Orderly limit generation

variable {limit}

abbrev Settles {ε : Type} (limit : Nat) (generation : Generation δ π φ ω)
    (m : Effect (Generation δ π φ ω) ε α) : Prop :=
  m.Yields generation (fun _ => Settled limit) (Fallen limit)

/-- Between two points only the host moved and the cancellation was looked at. -/
structure Aside (before after : Generation δ π φ ω) : Prop where
  cursor : after.cursor = before.cursor
  pipeline : after.pipeline = before.pipeline
  cancelled : before.cancelled = true → after.cancelled = true
  log : ∃ looks, after.log = before.log ++ List.replicate looks .cancellation ∧
    (0 < looks → after.cancelled = true)

namespace Aside

theorem refl (generation : Generation δ π φ ω) : Aside generation generation :=
  ⟨rfl, rfl, id, 0, (append_nil _).symm, fun hn => absurd hn (lt_irrefl 0)⟩

end Aside

theorem mayFollow_cancellation (entry : Observation φ) : MayFollow entry .cancellation := by
  rcases entry with _ | (_ | _) | _ | _ | _ <;> trivial

theorem Orderly.aside (ho : Orderly limit before) (hm : Aside before after) :
    Orderly limit after := by
  obtain ⟨looks, hlo, hs⟩ := hm.log
  refine ⟨?_, fun hl => ?_, hm.cursor ▸ ho.limited, hm.cursor ▸ ho.budget, ?_⟩
  · rw [hlo, pairwise_append]
    refine ⟨ho.ordered, pairwise_replicate.mpr (.inr trivial), ?_⟩
    intro entry _ look hl
    rw [eq_of_mem_replicate hl]
    exact mayFollow_cancellation entry
  · rw [hlo, mem_append] at hl
    rcases hl with hl | hl
    · exact hm.cancelled (ho.observed hl)
    · exact hs (pos_of_ne_zero (mem_replicate.mp hl).1)
  · intro reason hr
    rw [hm.cursor] at hr
    obtain ⟨told, hon, ha⟩ := ho.truthful reason hr
    refine ⟨told, ?_, ?_⟩
    · rw [hlo, finishes_append, hon, finishes_cancellations, append_nil]
    · rw [ha, hlo, mem_append, not_or]
      exact ⟨fun hab => ⟨hab, by simp⟩, And.left⟩

theorem Active.aside (ha : Active limit ended flushed before) (hm : Aside before after) :
    Active limit ended flushed after := by
  obtain ⟨looks, hl, -⟩ := hm.log
  refine ⟨ha.toOrderly.aside hm, hm.cursor ▸ ha.unended, hm.cursor ▸ ha.unfailed, ?_, ?_, ?_⟩
  · rw [hl, mem_append, not_or]
    exact ⟨ha.unfenced, by simp⟩
  · rw [hl, finishes_append, ha.finishes, finishes_cancellations,
      append_nil]
  · rw [← ha.flushes, hl, mem_append]
    exact ⟨fun hli => hli.resolve_right (by simp), .inl⟩

theorem Flowing.aside (hf : Flowing limit before) (hm : Aside before after) : Flowing limit after :=
  ⟨hf.toActive.aside hm, hm.pipeline ▸ hf.running, hm.pipeline ▸ hf.drained⟩

theorem Live.aside (hl : Live limit before) (hm : Aside before after) : Live limit after :=
  ⟨hl.toFlowing.aside hm, hm.cursor ▸ hl.uncommitted⟩

theorem Settled.aside (hs : Settled limit before) (hm : Aside before after) :
    Settled limit after := by
  rcases hs with hl | ⟨ho, hr⟩
  · exact .inl (hl.aside hm)
  · exact .inr ⟨ho.aside hm, hm.cursor ▸ hr⟩

theorem Settled.orderly (hs : Settled limit generation) : Orderly limit generation := by
  rcases hs with hl | hc
  · exact hl.toOrderly
  · exact hc.1

variable {surroundings : Surroundings δ π φ ω S D K}
  {stopped : Fault (CommittedGenerationError S D K) → Generation δ π φ ω → Prop}

theorem yields_asking (call : Effect.Call ω S α) :
    (asking call : GenerationM δ π φ ω S D K (Except S α)).Yields generation
      (fun _ => Aside generation) stopped :=
  ⟨rfl, rfl, id, 0, (append_nil _).symm, fun hn => absurd hn (lt_irrefl 0)⟩

theorem yields_isCancelled : (isCancelled surroundings).Yields generation
      (fun seen after => Aside generation after ∧ after.cancelled = seen) stopped := by
  unfold isCancelled
  rw [yields_apply]
  by_cases hr : generation.cancelled = true
  · simp only [hr]
    exact ⟨⟨rfl, rfl, id, 1, rfl, fun _ => hr⟩, hr⟩
  · simp only [hr, Bool.false_eq_true]
    cases hp : (surroundings.poll generation.host).1 with
    | false =>
      exact ⟨⟨rfl, rfl, fun seen => absurd seen hr, 0, (append_nil _).symm,
        fun hn => absurd hn (lt_irrefl 0)⟩, rfl⟩
    | true => exact ⟨⟨rfl, rfl, fun _ => rfl, 1, rfl, fun _ => rfl⟩, rfl⟩

theorem yields_cancelUnless (ready : Bool) : (cancelUnless surroundings ready).Yields generation
      (fun _ => Aside generation) stopped := by
  unfold cancelUnless
  cases ready with
  | true => exact Aside.refl generation
  | false => exact ⟨rfl, rfl, fun _ => rfl, 1, rfl, fun _ => rfl⟩

variable (tokenId : TokenId) (result : Except (CommittedGenerationError S D K) Unit)
  (cancelled : Bool)

/-- A settlement with the source returns only when the local result was good. -/
theorem yields_finishStep : (finishStep surroundings result cancelled).Yields generation
      (fun _ after => result = .ok () ∧ Aside generation after)
      (fun fault after => Reported fault after ∧ Aside generation after) := by
  refine (yields_asking _).andThen ?_
  intro settled after hm
  rcases result with cause | ⟨⟩
  · exact ⟨⟨cause, rfl⟩, hm⟩
  · cases settled with
    | error cause => exact ⟨⟨_, rfl⟩, hm⟩
    | ok ready => exact ⟨rfl, hm⟩

theorem foldl_deliver (events : List (SemanticEvent φ)) (generation : Generation δ π φ ω) :
    events.foldl (deliver surroundings) generation =
      { generation with
        log := generation.log ++ events.map .delivered
        host := events.foldl (fun host event => surroundings.emit event host) generation.host } := by
  induction events generalizing generation with
  | nil => simp
  | cons event events ih =>
    rw [foldl_cons, ih]
    simp [deliver, note]

theorem yields_drainInto : (drainInto surroundings).Yields generation
      (fun _ after => after.cursor = generation.cursor ∧
        after.pipeline = { generation.pipeline with parser.events := [] } ∧
        after.cancelled = generation.cancelled ∧
        after.log = generation.log ++ generation.pipeline.parser.events.map .delivered)
      stopped := by
  refine .bind (yields_apply _ |>.mpr (yields_modify _ |>.mpr ?_))
  rw [foldl_deliver]
  exact ⟨rfl, rfl, rfl, rfl⟩

variable (parts : List φ)

/-- What the stream wrote and, at its end, one terminal event. -/
def written (ended : Option FinishReason) : List (SemanticEvent φ) :=
  parts.map .part ++ ended.toList.map .finished

theorem mayFollow_delivered {entry : Observation φ} {event : SemanticEvent φ}
    (hu : entry ≠ .failed) (hun : entry.finish? = none) : MayFollow entry (.delivered event) := by
  rcases entry with _ | (_ | _) | _ | _ | _
  · trivial
  · trivial
  · cases hun
  · trivial
  · trivial
  · exact hu rfl

theorem pairwise_written (ended : Option FinishReason) :
    ((written parts ended).map Observation.delivered).Pairwise MayFollow := by
  unfold written
  rw [map_append, map_map, map_map, pairwise_append]
  refine ⟨?_, ?_, ?_⟩
  · exact pairwise_map.mpr (pairwise_of_forall fun _ _ => trivial)
  · cases ended with
    | none => exact List.Pairwise.nil
    | some reason => exact pairwise_singleton _ _
  · intro first hl second _
    obtain ⟨content, -, rfl⟩ := mem_map.mp hl
    rcases second with _ | _ | _ | _ | _ <;> trivial

theorem finishes_written (ended : Option FinishReason) :
    finishes ((written parts ended).map Observation.delivered) = ended.toList := by
  unfold written
  rw [map_append, finishes_append, map_map]
  show finishes (parts.map fun content => Observation.delivered (.part content)) ++ _ = _
  rw [finishes_parts]
  cases ended <;> rfl

theorem Active.delivers (ha : Active limit none flushed before) (parts : List φ)
    (hc : after.cursor = before.cursor) (hca : after.cancelled = before.cancelled)
    (log : after.log = before.log ++ (written parts ended).map .delivered) :
    Active limit ended flushed after := by
  have hu : ∀ entry ∈ before.log, entry.finish? = none := filterMap_eq_nil_iff.mp ha.finishes
  refine ⟨⟨?_, ?_, hc ▸ ha.limited, hc ▸ ha.budget, ?_⟩, hc ▸ ha.unended,
    hc ▸ ha.unfailed, ?_, ?_, ?_⟩
  · rw [log, pairwise_append]
    refine ⟨ha.ordered, pairwise_written parts ended, ?_⟩
    intro entry hl _ hd
    obtain ⟨event, -, rfl⟩ := mem_map.mp hd
    exact mayFollow_delivered (fun hf => ha.unfenced (hf ▸ hl)) (hu entry hl)
  · intro hl
    rw [hca]
    rw [log, mem_append] at hl
    exact ha.observed (hl.resolve_right (by simp))
  · intro reason hr
    rw [hc, ha.unended] at hr
    cases hr
  · rw [log, mem_append, not_or]
    exact ⟨ha.unfenced, by simp⟩
  · rw [log, Observation.finishes_append, ha.finishes, finishes_written]
    rfl
  · rw [← ha.flushes, log, mem_append]
    exact ⟨fun hl => hl.resolve_right (by simp), .inl⟩

theorem yields_deliverUntilCancelled (ha : Active limit none false generation) :
    (deliverUntilCancelled surroundings (parts.map .part)).Yields generation
      (fun _ after => Active limit none false after ∧ after.cursor = generation.cursor ∧
        after.pipeline = generation.pipeline) stopped := by
  induction parts generalizing generation with
  | nil =>
    refine yields_isCancelled.imp ?_
    exact fun _ _ looked => ⟨ha.aside looked.1, looked.1.cursor, looked.1.pipeline⟩
  | cons content parts ih =>
    have hh : Active limit none false (deliver surroundings generation (.part content)) :=
      ha.delivers [content] rfl rfl rfl
    refine .bind (yields_modify _ |>.mpr ?_)
    refine yields_isCancelled.andThen ?_
    rintro seen looked ⟨hm, -⟩
    cases seen with
    | true => exact ⟨hh.aside hm, hm.cursor, hm.pipeline⟩
    | false =>
      refine (ih (hh.aside hm)).imp ?_
      rintro _ after ⟨ha, hc, hp⟩
      exact ⟨ha, hc.trans hm.cursor, hp.trans hm.pipeline⟩

theorem Orderly.piped (ho : Orderly limit generation) (pipeline : CommittedTokenPipeline δ π φ) :
    Orderly limit { generation with pipeline := pipeline } :=
  ⟨ho.ordered, ho.observed, ho.limited, ho.budget, ho.truthful⟩

theorem Active.same (ha : Active limit ended flushed before)
    (hcu : after.cursor = before.cursor) (hc : after.cancelled = before.cancelled)
    (log : after.log = before.log) : Active limit ended flushed after := by
  rcases after with ⟨_, _, _, _, _⟩
  subst hcu hc log
  exact ⟨⟨ha.ordered, ha.observed, ha.limited, ha.budget, ha.truthful⟩,
    ha.unended, ha.unfailed, ha.unfenced, ha.finishes, ha.flushes⟩

theorem Active.piped (ha : Active limit ended flushed generation)
    (pipeline : CommittedTokenPipeline δ π φ) :
    Active limit ended flushed { generation with pipeline := pipeline } :=
  ha.same rfl rfl rfl

theorem yields_piping {m : PipelineM δ π φ D α} {holds : α → CommittedTokenPipeline δ π φ → Prop}
    (hy : m.Yields generation.pipeline holds Reported) :
    (piping m : GenerationM δ π φ ω S D K α).Yields generation
      (fun value after => ∃ pipeline, holds value pipeline ∧
        after = { generation with pipeline := pipeline })
      (fun fault after => Reported fault after ∧
        ∃ pipeline, after = { generation with pipeline := pipeline }) := by
  unfold Yields piping at *
  rw [outcome_on]
  rcases ran : m.outcome generation.pipeline with ⟨(cause | message) | value, pipeline⟩
  · exact ⟨⟨_, rfl⟩, pipeline, rfl⟩
  · rw [ran] at hy
    obtain ⟨cause, ho⟩ := hy
    cases ho
  · rw [ran] at hy
    exact ⟨pipeline, hy, rfl⟩

theorem Active.fallen {ε : Type} {fault : Fault ε} (ha : Active limit ended flushed before)
    (hf : Reported fault after ∧ ∃ pipeline, after = { before with pipeline := pipeline }) :
    Fallen limit fault after := by
  obtain ⟨hr, pipeline, rfl⟩ := hf
  exact ⟨hr, ha.toOrderly.piped pipeline⟩

theorem events_of_continues {reason : FinishReason} {closes : Bool}
    {stream later : SemanticStream π φ} (hc : Continues reason closes stream later)
    (hd : stream.events = []) :
    ∃ parts, later.events = written parts (if closes then some reason else none) := by
  obtain ⟨parts, hw⟩ := hc.events
  refine ⟨parts, ?_⟩
  rw [hw, hd, nil_append, written]
  cases closes <;> rfl

theorem Active.concluded {reason told : FinishReason}
    (ha : Active limit (some told) flushed generation) (hag : told = reason ↔ flushed = false) :
    Concluded limit { generation with cursor.finishReason := some reason } := by
  refine ⟨⟨ha.ordered, ha.observed, ha.limited, ha.budget, ?_⟩, rfl⟩
  rintro _ ⟨⟩
  refine ⟨told, ha.finishes, ?_⟩
  rw [hag, ha.flushes, Bool.not_eq_true]

theorem yields_finishCancelled (hf : Flowing limit generation) :
    (finishCancelled surroundings).Yields generation (fun _ => Concluded limit) stopped := by
  obtain ⟨parts, hw⟩ := events_of_continues (SemanticStream.continues_cancel hf.running) hf.drained
  refine .bind (yields_modify _ |>.mpr ?_)
  refine yields_drainInto.andThen ?_
  rintro _ after ⟨hcu, -, hc, log⟩
  have ha : Active limit (some .cancelled) false after :=
    hf.toActive.delivers parts hcu hc (by rw [log]; exact congrArg _ (hw ▸ rfl))
  exact yields_modify _ |>.mpr (ha.concluded (by simp))

/-- The stop that ended the stream has been delivered. -/
structure Stopped (limit : Nat) (generation : Generation δ π φ ω) : Prop
    extends Active limit (some .stopSequence) false generation where
  finished : generation.pipeline.parser.finished = true
  drained : generation.pipeline.parser.events = []

/-- How the events of a token leave a generation. -/
def Delivered (limit : Nat) (stopMatched : Bool) (generation : Generation δ π φ ω) : Prop :=
  if stopMatched then Stopped limit generation else Flowing limit generation

theorem yields_deliverToken {parts : List φ} (matched : Bool)
    (ha : Active limit none false generation) (hs : generation.pipeline.parser.stops.Sound)
    (hf : generation.pipeline.parser.finished = matched) (hw : generation.pipeline.parser.events =
      written parts (if matched then some .stopSequence else none)) :
    (deliverToken surroundings matched).Yields generation
      (fun _ after => Delivered limit matched after ∧ after.cursor = generation.cursor) stopped := by
  cases matched with
  | true =>
    refine yields_drainInto.andThen ?_
    rintro _ drained ⟨hc, hp, hca, log⟩
    have ended : Active limit (some .stopSequence) false drained :=
      ha.delivers parts hc hca (by rw [log, hw]; rfl)
    refine yields_isCancelled.imp ?_
    rintro _ after ⟨hm, -⟩
    refine ⟨⟨ended.aside hm, ?_, ?_⟩, hm.cursor.trans hc⟩
    · rw [hm.pipeline, hp]
      exact hf
    · rw [hm.pipeline, hp]
  | false =>
    refine .bind (yields_apply _ |>.mpr ?_)
    have hpl : generation.pipeline.parser.events = parts.map .part := by
      rw [hw]
      exact append_nil _
    rw [hpl]
    refine (yields_deliverUntilCancelled parts (ha.piped _)).imp ?_
    rintro _ after ⟨ha, hc, hp⟩
    exact ⟨⟨ha, ⟨hp ▸ hs, hp ▸ hf⟩, by rw [hp]⟩, hc⟩

theorem yields_pushCancellable (hf : Flowing limit generation) :
    (pushCancellable surroundings tokenId).Yields generation
      (fun outcome after => Delivered limit outcome.1 after ∧ after.cursor = generation.cursor)
      (Fallen limit) := by
  refine .bind
    ((yields_piping (yields_accept tokenId hf.running)).mono ?_
      fun _ _ hfa => hf.toActive.fallen hfa)
  rintro matched _ ⟨pipeline, hc, rfl⟩
  obtain ⟨parts, hw⟩ := events_of_continues hc hf.drained
  refine (yields_deliverToken matched (hf.toActive.piped pipeline)
    hc.sound hc.finished hw).andThen ?_
  exact fun _ _ hd => yields_pure _ |>.mpr hd

theorem commit_open {sequence : GenerationSequence} (hu : sequence.finishReason = none)
    (tokenId : TokenId) (signals : TokenTerminalSignals) :
    sequence.commit tokenId signals =
      .ok (⟨tokenId, sequence.tokens.length, sequence.reasonAfter tokenId signals⟩,
        { sequence with
          tokens := sequence.tokens ++ [tokenId]
          finishReason := sequence.reasonAfter tokenId signals }) := by
  rw [GenerationSequence.commit, if_neg (by simp [hu])]

theorem yields_commit (signals : TokenTerminalSignals) (ha : Active limit ended flushed generation)
    (hu : Uncommitted generation.cursor.sequence) : (commit tokenId signals).Yields generation
      (fun reason after => Active limit ended flushed after ∧ after.pipeline = generation.pipeline ∧
        reason = generation.cursor.sequence.reasonAfter tokenId signals ∧
        (reason = none → Uncommitted after.cursor.sequence)) stopped := by
  have hc := commit_open hu.1 tokenId signals
  have hr := hu.2 hu.1
  rw [ha.limited] at hr
  refine .bind (yields_get.mpr ?_)
  rw [hc]
  refine .bind (yields_set _ |>.mpr (yields_pure _ |>.mpr ?_))
  refine ⟨⟨⟨ha.ordered, ha.observed, ha.limited, ?_, ha.truthful⟩, ha.unended,
    ha.unfailed, ha.unfenced, ha.finishes, ha.flushes⟩, rfl, rfl,
    fun hun => ⟨hun, hu.2.commit hc⟩⟩
  rw [length_append]
  exact hr

theorem Active.noted (ha : Active limit ended false generation) (stops : Bool) :
    Active limit ended stops (generation.note (.finishing stops)) := by
  have hf : ∀ entry : Observation φ, MayFollow entry (.finishing stops) := by
    rintro (_ | (_ | _) | _ | _ | _) <;> trivial
  have hu : .finishing true ∉ generation.log := by simp [ha.flushes]
  refine ⟨⟨?_, ?_, ha.limited, ha.budget, ?_⟩, ha.unended, ha.unfailed, ?_, ?_, ?_⟩
  · refine pairwise_append.mpr ⟨ha.ordered, pairwise_singleton _ _, ?_⟩
    intro entry _ other hl
    rw [mem_singleton.mp hl]
    exact hf entry
  · intro hl
    exact ha.observed ((mem_append.mp hl).resolve_right (by simp))
  · intro reason hr
    exact absurd (hr.symm.trans ha.unended) (by simp)
  · exact fun hl => ha.unfenced ((mem_append.mp hl).resolve_right (by simp))
  · show Observation.finishes (generation.log ++ [_]) = _
    rw [finishes_append, ha.finishes]
    exact append_nil _
  · show _ ∈ generation.log ++ [_] ↔ _
    simp [hu]

/-- An open stream ends with the reason of the commit, unless its flush completed a stop. -/
theorem yields_finish (reason : FinishReason) (hf : Flowing limit generation) :
    (finish surroundings reason).Yields generation
      (fun _ after => ∃ stops, Active limit (some (if stops then .stopSequence else reason)) stops
        after) (Fallen limit) := by
  have hn := hf.toActive.noted (generation.pipeline.flushStops surroundings.decoder)
  have hr : (generation.note (.finishing (generation.pipeline.flushStops
    surroundings.decoder))).pipeline.parser.Running := hf.running
  refine .bind (yields_modify _ |>.mpr ?_)
  refine .bind
    ((yields_piping (CommittedTokenPipeline.yields_finish reason hr)).mono ?_
      fun _ _ hfa => hn.fallen hfa)
  rintro _ _ ⟨pipeline, hc, rfl⟩
  obtain ⟨parts, hw⟩ := events_of_continues hc hf.drained
  refine yields_drainInto.imp ?_
  rintro _ after ⟨hcu, -, hca, log⟩
  exact ⟨_, (hn.piped pipeline).delivers parts hcu hca (log.trans (hw ▸ rfl))⟩

theorem yields_finish_stopped (reason : FinishReason) (ended : Stopped limit generation) :
    (finish surroundings reason).Yields generation
      (fun _ => Active limit (some .stopSequence) false) (Fallen limit) := by
  have hcl : generation.pipeline.flushStops surroundings.decoder = false := by
    simp [flushStops, ended.finished]
  have hn := ended.toActive.noted false
  have hf : (generation.note (.finishing false)).pipeline.parser.finished = true := ended.finished
  refine .bind (yields_modify _ |>.mpr ?_)
  rw [hcl]
  refine .bind
    ((yields_piping (yields_finish_finished reason hf)).mono ?_
      fun _ _ hfa => hn.fallen hfa)
  rintro _ _ ⟨pipeline, hs, rfl⟩
  refine yields_drainInto.imp ?_
  rintro _ after ⟨hcu, -, hc, log⟩
  have hno : pipeline.parser.events = [] := hs ▸ ended.drained
  rw [hno, map_nil, append_nil] at log
  exact hn.same hcu hc log

theorem reasonAfter_ne_stopSequence (tokenId : TokenId)
    (complete : Bool) : sequence.reasonAfter tokenId ⟨false, complete⟩ ≠ some .stopSequence := by
  unfold GenerationSequence.reasonAfter
  split_ifs <;> simp_all

theorem yields_conclude (reason : Option FinishReason) (hf : Flowing limit generation)
    (hu : reason = none → Uncommitted generation.cursor.sequence)
    (ho : reason ≠ some .stopSequence) :
    Settles limit generation (conclude surroundings reason) := by
  cases reason with
  | none => exact .inl ⟨hf, hu rfl⟩
  | some reason =>
    refine (yields_finish reason hf).andThen ?_
    rintro _ after ⟨stops, ha⟩
    refine yields_modify _ |>.mpr (.inr (ha.concluded ?_))
    cases stops with
    | false => simp
    | true => simpa using fun hs => ho (congrArg some hs.symm)

theorem yields_conclude_stopped (ended : Stopped limit generation) :
    Settles limit generation (conclude surroundings (some .stopSequence)) := by
  refine (yields_finish_stopped _ ended).andThen ?_
  intro _ after ha
  exact yields_modify _ |>.mpr (.inr (ha.concluded (by simp)))

theorem Flowing.cursored (hf : Flowing limit before) (ha : Active limit none false after)
    (hp : after.pipeline = before.pipeline) : Flowing limit after :=
  ⟨ha, hp ▸ hf.running, hp ▸ hf.drained⟩

theorem Stopped.cursored (ended : Stopped limit before)
    (ha : Active limit (some .stopSequence) false after)
    (hp : after.pipeline = before.pipeline) : Stopped limit after :=
  ⟨ha, hp ▸ ended.finished, hp ▸ ended.drained⟩

/-- Cancelling the sequence changes nothing that is committed or delivered. -/
theorem Flowing.cancelSequence (hf : Flowing limit generation) :
    Flowing limit { generation with cursor.sequence := generation.cursor.sequence.cancel.2 } := by
  have hu : generation.cursor.sequence.cancel.2.maxTokens =
      generation.cursor.sequence.maxTokens := by
    unfold GenerationSequence.cancel
    split
    · rfl
    · split <;> rfl
  refine ⟨⟨⟨hf.ordered, hf.observed, hu.trans hf.limited, ?_,
    hf.truthful⟩, hf.unended, hf.unfailed, hf.unfenced, hf.finishes,
    hf.flushes⟩, hf.running, hf.drained⟩
  rw [GenerationSequence.cancel_tokens]
  exact hf.budget

theorem yields_commitCancelled (hl : Live limit generation) :
    Settles limit generation (commitCancelled surroundings tokenId) := by
  refine (yields_commit tokenId _ hl.toActive hl.uncommitted).andThen ?_
  rintro _ committed ⟨ha, hp, -, -⟩
  have hf : Flowing limit committed := hl.toFlowing.cursored ha hp
  refine .bind (yields_modify _ |>.mpr ?_)
  exact (yields_finishCancelled hf.cancelSequence).mono (fun _ _ => .inr) fun _ _ => id

theorem yields_grammarComplete (stopMatched : Bool) :
    (grammarComplete surroundings stopMatched).Yields generation (fun _ => Aside generation)
      (fun fault after => Reported fault after ∧ Aside generation after) := by
  cases stopMatched with
  | true => exact Aside.refl generation
  | false =>
    refine (yields_asking _).andThen ?_
    rintro (cause | complete) after hm
    · exact ⟨⟨_, rfl⟩, hm⟩
    · exact hm

theorem yields_commitDelivered (stopMatched : Bool) (hd : Delivered limit stopMatched generation)
    (hu : Uncommitted generation.cursor.sequence) :
    Settles limit generation (commitDelivered surroundings tokenId stopMatched) := by
  cases stopMatched with
  | true =>
    have ended : Stopped limit generation := hd
    refine .bind ((yields_grammarComplete true).mono ?_
      fun _ _ hf => ⟨hf.1, ended.toOrderly.aside hf.2⟩)
    intro complete asked hm
    refine (yields_commit tokenId _ (ended.toActive.aside hm) (hm.cursor ▸ hu)).andThen ?_
    rintro _ committed ⟨ha, hp, rfl, -⟩
    exact yields_conclude_stopped (ended.cursored ha (hp.trans hm.pipeline))
  | false =>
    have hfl : Flowing limit generation := hd
    refine .bind ((yields_grammarComplete false).mono ?_
      fun _ _ hf => ⟨hf.1, hfl.toOrderly.aside hf.2⟩)
    intro complete asked hm
    refine (yields_commit tokenId _ (hfl.toActive.aside hm) (hm.cursor ▸ hu)).andThen ?_
    rintro _ committed ⟨ha, hp, rfl, hun⟩
    exact yields_conclude _ (hfl.cursored ha (hp.trans hm.pipeline)) hun
      (reasonAfter_ne_stopSequence _ _ _)

section

variable (hl : Live limit generation)
include hl

theorem yields_acceptToken : Settles limit generation (acceptToken surroundings tokenId) := by
  refine (yields_pushCancellable tokenId hl.toFlowing).andThen ?_
  rintro ⟨stopMatched, cancelled⟩ middle ⟨hd, hc⟩
  have hu : Uncommitted middle.cursor.sequence := hc ▸ hl.uncommitted
  dsimp only
  split
  · next hi =>
    obtain ⟨-, hun⟩ := Bool.and_eq_true_iff.mp hi
    rw [Bool.not_eq_true'] at hun
    subst hun
    exact yields_commitCancelled tokenId ⟨hd, hu⟩
  · exact yields_commitDelivered tokenId stopMatched hd hu

theorem yields_observeCancellation :
    (observeCancellation surroundings).Yields generation
      (fun seen after => if seen then Flowing limit after
        else Live limit after ∧ after.cancelled = false) stopped := by
  refine yields_isCancelled.andThen ?_
  rintro seen looked ⟨hm, hf⟩
  have hl := hl.aside hm
  cases seen with
  | false => exact ⟨hl, hf⟩
  | true =>
    have ho : looked.cursor.sequence.cancel.1 = true := by
      simp [GenerationSequence.cancel, hl.uncommitted.1]
    refine yields_apply _ |>.mpr ?_
    rw [ho]
    exact hl.toFlowing.cancelSequence

theorem yields_exhausted : Settles limit generation (exhausted surroundings) := by
  refine (yields_observeCancellation hl).andThen ?_
  intro seen after ho
  cases seen with
  | true => exact (yields_finishCancelled ho).mono (fun _ _ => .inr) fun _ _ => id
  | false => exact ⟨⟨_, rfl⟩, ho.1.toOrderly⟩

theorem Live.requested (hu3 : generation.cancelled = false) :
    Live limit (generation.note .requested) := by
  have hu2 : ∀ entry ∈ generation.log, entry.finish? = none := filterMap_eq_nil_iff.mp hl.finishes
  have hun : .cancellation ∉ generation.log := fun hli => by
    simp [hl.observed hli] at hu3
  refine ⟨⟨⟨⟨?_, ?_, hl.limited, hl.budget, ?_⟩, hl.unended, hl.unfailed, ?_, ?_, ?_⟩,
    hl.running, hl.drained⟩, hl.uncommitted⟩
  · refine pairwise_append.mpr ⟨hl.ordered, pairwise_singleton _ _, ?_⟩
    intro entry hli other hr
    rw [mem_singleton.mp hr]
    have hud : entry ≠ .failed := fun hf => hl.unfenced (hf ▸ hli)
    have hu : entry ≠ .cancellation := fun hlo => hun (hlo ▸ hli)
    have hp := hu2 entry hli
    rcases entry with _ | (_ | _) | _ | _ | _
    · trivial
    · trivial
    · cases hp
    · exact hu rfl
    · trivial
    · exact hud rfl
  · intro hli
    exact hl.observed ((mem_append.mp hli).resolve_right (by simp))
  · intro reason hre
    exact absurd (hre.symm.trans hl.unended) (by simp)
  · exact fun hli => hl.unfenced ((mem_append.mp hli).resolve_right (by simp))
  · show finishes (generation.log ++ [_]) = _
    rw [finishes_append, hl.finishes]
    rfl
  · rw [← hl.flushes]
    show _ ∈ generation.log ++ [_] ↔ _
    simp

theorem yields_advance (hu : generation.cancelled = false) :
    Settles limit generation (advance surroundings) := by
  refine .bind (yields_modify _ |>.mpr ?_)
  refine (yields_asking _).andThen ?_
  intro answered after hm
  have hl := (hl.requested hu).aside hm
  rcases answered with cause | _ | tokenId | _
  · exact ⟨⟨_, rfl⟩, hl.toOrderly⟩
  · exact .inl hl
  · exact yields_acceptToken tokenId hl
  · exact yields_exhausted hl

theorem yields_stepInner : Settles limit generation (stepInner surroundings) := by
  refine (yields_observeCancellation hl).andThen ?_
  intro seen after ho
  cases seen with
  | true => exact (yields_finishCancelled ho).mono (fun _ _ => .inr) fun _ _ => id
  | false => exact yields_advance ho.1 ho.2

end

theorem yields_delivered : (delivered surroundings result).Yields generation
      (fun answer after => after = generation ∧ (answer = .ok () → result = .ok ())) stopped := by
  refine .bind (yields_get.mpr (yields_pure _ |>.mpr ⟨rfl, ?_⟩))
  rcases result with cause | ⟨⟩
  · exact id
  · exact fun _ => rfl

theorem yields_settlement (ho : Orderly limit generation)
    (hs : result = .ok () → Settled limit generation) :
    Settles limit generation (finishStep surroundings result cancelled) := by
  refine (yields_finishStep result cancelled).mono ?_ ?_
  · exact fun _ _ ha => (hs ha.1).aside ha.2
  · exact fun _ _ hf => ⟨hf.1, ho.aside hf.2⟩

theorem yields_finishUnended (hs : Settled limit generation) :
    Settles limit generation (finishUnended surroundings) := by
  refine .bind (yields_get.mpr ?_)
  rcases hs with hl | hc
  · rw [hl.unended]
    refine .bind (yields_modify _ |>.mpr ?_)
    exact (yields_finishCancelled hl.toFlowing.cancelSequence).mono (fun _ _ => .inr)
      fun _ _ => id
  · rw [if_neg (by simp [Option.isSome_iff_ne_none.mp hc.2])]
    exact .inr hc

theorem yields_finishPeers (ready : Bool) (hs : Settled limit generation) :
    Settles limit generation (finishPeers surroundings ready) := by
  unfold finishPeers
  split
  · exact hs
  refine (yields_cancelUnless _).andThen ?_
  intro _ cancelled hm
  refine (yields_finishUnended (hs.aside hm)).andThen ?_
  intro _ ended hs
  refine (yields_delivered _).andThen ?_
  rintro failure _ ⟨rfl, -⟩
  refine (yields_settlement failure true hs.orderly fun _ => hs).andThen ?_
  exact fun _ _ => id

/-- An inner computation whose error is kept as a value. -/
theorem yields_attempted {ε : Type} {m : Effect (Generation δ π φ ω) ε Unit}
    (hy : Settles limit generation m) : (Effect.attempt m).Yields generation
      (fun result after => Orderly limit after ∧ (result = .ok () → Settled limit after))
      (fun _ _ => False) := by
  refine yields_attempt.mpr (hy.mono ?_ ?_)
  · exact fun _ _ hs => ⟨hs.orderly, fun _ => hs⟩
  · rintro _ after ⟨⟨cause, rfl⟩, ho⟩
    exact ⟨ho, nofun⟩

theorem yields_stepBody (hl : Live limit generation) :
    Settles limit generation (stepBody surroundings) := by
  refine (yields_delivered _).andThen ?_
  rintro failure _ ⟨rfl, -⟩
  refine yields_isCancelled.andThen ?_
  rintro cancelled looked ⟨hm, -⟩
  refine .bind ((yields_finishStep failure cancelled).mono ?_
    fun _ _ hf => ⟨hf.1, (hl.toOrderly.aside hm).aside hf.2⟩)
  rintro ready asked ⟨-, hmn⟩
  refine (yields_cancelUnless ready).andThen ?_
  intro _ told hmo
  have hl := ((hl.aside hm).aside hmn).aside hmo
  refine .bind ((yields_attempted (yields_stepInner hl)).mono ?_ fun _ _ => False.elim)
  rintro result reached ⟨ho, hs⟩
  refine (yields_delivered result).andThen ?_
  rintro answer _ ⟨rfl, hfi⟩
  refine yields_isCancelled.andThen ?_
  rintro cancelled looked ⟨hm, -⟩
  refine (yields_settlement answer cancelled (ho.aside hm)
    fun hg => (hs (hfi hg)).aside hm).andThen ?_
  exact fun ready _ hs => yields_finishPeers ready hs

def Between (limit : Nat) (generation : Generation δ π φ ω) : Prop :=
  Live limit generation ∨ Orderly limit generation ∧
    (generation.cursor.finishReason.isSome ∨ generation.cursor.failed = true)

theorem Between.orderly (hb : Between limit generation) : Orderly limit generation := by
  rcases hb with hl | ⟨ho, -⟩
  · exact hl.toOrderly
  · exact ho

theorem Orderly.noted (ho : Orderly limit generation) :
    Orderly limit (generation.note .failed) := by
  have hf : ∀ entry : Observation φ, MayFollow entry .failed := by
    rintro (_ | (_ | _) | _ | _ | _) <;> trivial
  refine ⟨?_, ?_, ho.limited, ho.budget, ?_⟩
  · refine pairwise_append.mpr ⟨ho.ordered, pairwise_singleton _ _, ?_⟩
    intro entry _ other hl
    rw [mem_singleton.mp hl]
    exact hf entry
  · intro hl
    exact ho.observed ((mem_append.mp hl).resolve_right (by simp))
  · intro reason hr
    obtain ⟨told, hon, ha⟩ := ho.truthful reason hr
    refine ⟨told, ?_, ?_⟩
    · show finishes (generation.log ++ [_]) = _
      rw [finishes_append, hon]
      rfl
    · rw [ha]
      show _ ↔ _ ∉ generation.log ++ [_]
      simp

theorem yields_step (hb : Between limit generation) :
    (step surroundings).Yields generation (fun _ => Settled limit)
      (fun _ after => Orderly limit after ∧
        (after.cursor.finishReason.isSome ∨ after.cursor.failed = true)) := by
  refine .bind (yields_get.mpr ?_)
  by_cases hf : generation.cursor.failed = true
  · rw [if_pos hf]
    exact ⟨hb.orderly, .inr hf⟩
  · rw [if_neg hf]
    by_cases hr : generation.cursor.finishReason.isSome
    · rw [if_pos hr]
      exact ⟨hb.orderly, .inl hr⟩
    · rw [if_neg hr]
      have hl : Live limit generation := hb.resolve_right fun hc => hc.2.elim hr hf
      refine .bind ((yields_attempted (yields_stepBody hl)).mono ?_ ?_)
      · rintro (cause | ⟨⟩) after ⟨ho, hs⟩
        · refine .bind (yields_modify _ |>.mpr ?_)
          exact ⟨⟨ho.ordered, ho.observed, ho.limited, ho.budget, ho.truthful⟩, .inr rfl⟩
        · exact hs rfl
      · exact fun _ _ => False.elim

variable (surroundings)

theorem Between.next
    (hb : Between limit generation) : Between limit (generation.next surroundings) := by
  have hs : (step surroundings).Yields generation _ _ := yields_step hb
  unfold Yields at hs
  unfold Generation.next
  split at hs
  · next ran =>
    rw [ran]
    rcases hs with hl | hc
    · exact .inl hl
    · exact .inr ⟨hc.1, .inl hc.2⟩
  · next ran =>
    rw [ran]
    exact .inr ⟨hs.1.noted, hs.2⟩

theorem between_iterate (hb : Between limit generation) (steps : Nat) :
    Between limit ((Generation.next surroundings)^[steps] generation) := by
  induction steps with
  | zero => exact hb
  | succ steps ih =>
    rw [Function.iterate_succ_apply']
    exact ih.next surroundings

theorem live_new (eosTokenIds : List TokenId) (maxTokens : ℕ+) (decoder : RawTokenDecoder δ)
    (parser : π) (profileStops callerStops structuralStops : List String) (host : ω)
    (cancelled : Bool) : Live maxTokens (.new eosTokenIds maxTokens decoder
      (.new parser profileStops callerStops structuralStops) host cancelled :
        Generation δ π φ ω) := by
  refine ⟨⟨⟨⟨List.Pairwise.nil, ?_, rfl, Nat.zero_le _, ?_⟩, rfl, rfl, ?_, rfl, ?_⟩,
    SemanticStream.running_new _ _ _ _, rfl⟩, ?_, GenerationSequence.new_withinBudget _ _⟩
  · exact fun hl => absurd hl not_mem_nil
  · intro reason hr
    cases hr
  · exact not_mem_nil
  · simp [Generation.new]
  · exact if_neg maxTokens.ne_zero

end Generation

open Generation in
/-- Over any number of steps, with cancellation at any time and failures anywhere: at most one
terminal event is delivered and nothing after it; nothing is requested or delivered after a failed
step, and nothing is requested after a terminal event or an observed cancellation; the budget is
kept; and when the cursor reports a reason, exactly one terminal event was delivered, with that
reason if and only if no stop was completed by the text flushed at the end. -/
theorem one_terminal_event {δ π φ ω S D K : Type} (surroundings : Surroundings δ π φ ω S D K)
    (eosTokenIds : List TokenId) (maxTokens : ℕ+) (decoder : RawTokenDecoder δ) (parser : π)
    (profileStops callerStops structuralStops : List String) (host : ω) (cancelled : Bool)
    (steps : Nat) :
    let generation := (Generation.next surroundings)^[steps] (.new eosTokenIds maxTokens decoder
      (.new parser profileStops callerStops structuralStops) host cancelled)
    generation.log.Pairwise MayFollow ∧
      (finishes generation.log).length ≤ 1 ∧
      generation.cursor.sequence.tokens.length ≤ maxTokens ∧
      ∀ reason, generation.cursor.finishReason = some reason →
        ∃ told, finishes generation.log = [told] ∧
          (told = reason ↔ .finishing true ∉ generation.log) := by
  have live := @live_new δ π φ ω eosTokenIds maxTokens decoder parser profileStops callerStops
    structuralStops host cancelled
  have orderly := (between_iterate surroundings (.inl live) steps).orderly
  exact ⟨orderly.ordered, length_finishes_le orderly.ordered, orderly.budget,
    orderly.truthful⟩

/-- Stateless text delivery. -/
def textParser : ProtocolParser Unit String where
  push text _ := ⟨if text.isEmpty then [] else [text], .ok (), ()⟩
  structural _ spelling _ := ⟨if spelling.isEmpty then [] else [spelling], .ok (), ()⟩
  stop _ _ := ⟨[], .ok (), ()⟩
  finish _ := ⟨[], .ok (), ()⟩

def holdingBack : Surroundings Unit Unit String Unit Empty Empty Empty where
  decoder :=
    { decodeToken _ _ state := (.ok [], state)
      finish state := (.ok [97], state) }
  protocol := textParser
  source :=
    { advance host := (.ok (.token 7), host)
      grammarIsComplete host := (.ok false, host)
      finishStep _ cancelled host := (.ok (!cancelled), host)
      deliveryFailure _ := none }
  emit _ host := host
  poll host := (false, host)
  cancel := id

/-- The reported reason is the end of the sequence, the delivered one a stop. -/
theorem flushed_stop_contradicts_reason :
    let generation := Generation.next holdingBack (.new [7] 4 (.withStructuralTokens () [])
      (.new () [] ["a"] []) () false)
    generation.cursor.finishReason = some .eos ∧
      generation.log = [.requested, .finishing true, .delivered (.finished .stopSequence)] := by
  decide +kernel

end Eredu.Streaming
