import Eredu.Session.Agreement
import Eredu.Session.PromptCacheSave

/-!
# A save happens on all ranks or on none

The argument follows a save through its three votes. `Kept` says what a rank owes at
every point: the publication it holds would bring the destination back, and what it
prepared it has rolled back, committed or still holds. A rank that fails is left
with nothing held and a fence.
-/

namespace Eredu.Session

open Participant List Except Rounds

variable {μ ω τ D I E T α ι δ : Type}

namespace Act

def isPrepared : Act μ → Bool
  | prepared => true
  | _ => false

def isCommitted : Act μ → Bool
  | committed => true
  | _ => false

def isRolledBack : Act μ → Bool
  | rolledBack => true
  | _ => false

end Act

/-- A publication remembers the destination it was prepared over, until it is committed. Rolling it
back or dropping it brings this destination back. -/
structure Reversible (rank : SavingRank μ ω τ D I E T) (destination : ω → δ)
    (remembers : τ → δ → Prop) : Prop where
  prepared : ∀ outcome left transaction,
    (rank.preparePromptCacheSave outcome left).1 = .ok transaction →
    remembers transaction (destination left.2)
  unprepared : ∀ outcome left cause,
    (rank.preparePromptCacheSave outcome left).1 = .error cause →
    destination (rank.preparePromptCacheSave outcome left).2.2 = destination left.2
  published : ∀ transaction world former, remembers transaction former →
    remembers (rank.publishPromptCacheSave transaction world).2.1 former
  rolledBack : ∀ transaction world former, remembers transaction former →
    destination (rank.rollbackPromptCacheSave transaction world) = former
  dropped : ∀ transaction world former, remembers transaction former →
    destination (rank.dropPromptCacheSave transaction world) = former

/-- What a rank did in a save, how often it committed, and how many publications it still holds. -/
def Balance (phases : List Phase) (commits holding : Nat) (before now : State μ ω) : Prop :=
  ∃ acts, now.trace = acts ++ before.trace ∧ entered acts = phases ∧
    acts.countP Act.isCommitted = commits ∧
    acts.countP Act.isPrepared = acts.countP Act.isRolledBack + commits + holding

structure Kept (destination : ω → δ) (remembers : τ → δ → Prop) (phases : List Phase)
    (before now : State μ ω) (held : Option τ) (fenced : Option Phase) : Prop where
  fence : now.controlFence = fenced
  balance : Balance phases 0 held.toList.length before now
  remembered : ∀ transaction, held = some transaction →
    remembers transaction (destination before.world)
  unchanged : held = none → destination now.world = destination before.world

namespace Kept

variable {rank : SavingRank μ ω τ D I E T} {destination : ω → δ} {remembers : τ → δ → Prop}
  {phases : List Phase} {before now : State μ ω} {held : Option τ} {fenced : Option Phase}

theorem start (state : State μ ω) (hu : state.controlFence = none) :
    Kept destination remembers [] state state none none :=
  ⟨hu, ⟨[], rfl, rfl, rfl, rfl⟩, nofun, fun _ => rfl⟩

section

variable (hk : Kept destination remembers phases before now held fenced)
include hk

theorem enter (phase : Phase) :
    Kept destination remembers (phase :: phases) before (now.note (.entered phase)) held fenced := by
  obtain ⟨acts, ht, hs, hc, hp⟩ := hk.balance
  refine ⟨hk.fence, ⟨.entered phase :: acts, ?_, ?_, ?_, ?_⟩, hk.remembered, hk.unchanged⟩
  · simp [State.note, ht]
  · simp [Act.phase?, hs]
  · simpa [Act.isCommitted] using hc
  · simpa [Act.isPrepared, Act.isRolledBack] using hp

theorem fenceAt (phase : Phase) :
    Kept destination remembers phases before (now.fenceAt phase) held (some phase) :=
  ⟨rfl, hk.balance, hk.remembered, hk.unchanged⟩

end

theorem giveBack {transaction : τ} {operation : ω → ω}
    (hk : Kept destination remembers phases before now (some transaction) fenced)
    (hr : ∀ former, remembers transaction former → destination (operation now.world) = former) :
    Kept destination remembers phases before (settleTransaction .rolledBack operation now) none
      fenced := by
  obtain ⟨acts, ht, hs, hc, hp⟩ := hk.balance
  refine ⟨hk.fence, ⟨.rolledBack :: acts, ?_, ?_, ?_, ?_⟩, nofun,
    fun _ => hr _ (hk.remembered _ rfl)⟩
  · simp [settleTransaction, ht]
  · simp [Act.phase?, hs]
  · simpa [Act.isCommitted] using hc
  · simp only [countP_cons, Act.isPrepared, Act.isRolledBack, Option.toList,
      length_singleton, length_nil] at hp ⊢
    simpa using hp

theorem rollbackAny (hk : Kept destination remembers phases before now held fenced)
    (hr : Reversible rank destination remembers) :
    ∃ after, (rollbackAny rank held).rounds now = .done (.ok (), after) ∧
      Kept destination remembers phases before after none fenced := by
  cases held with
  | none => exact ⟨now, rfl, hk⟩
  | some transaction => exact ⟨_, rfl, hk.giveBack fun former hh => hr.rolledBack _ _ _ hh⟩

/-- A failed preparation leaves nothing behind, and neither does one that does not fit. -/
theorem prepareSave (hk : Kept destination remembers phases before now none fenced)
    (hr : Reversible rank destination remembers) :
    ∃ result after, (prepareSave rank).rounds now = .done (.ok result, after) ∧
      Kept destination remembers phases before after result.toOption fenced := by
  obtain ⟨acts, ht, hsa, hc, hp⟩ := hk.balance
  have hor := hk.unchanged rfl
  simp only [Session.prepareSave, rounds_bind, rounds_get, rounds_act, done_andThen]
  cases ho : (rank.preparePromptCacheSave now.lastCommitOutcome (now.model, now.world)).1 with
  | error cause =>
    refine ⟨.error (.mechanism cause), _, rfl, hk.fence, ⟨acts, ht, hsa, hc, hp⟩,
      nofun, fun _ => ?_⟩
    exact (hr.unprepared _ _ _ ho).trans hor
  | ok transaction =>
    have hs : Kept destination remembers phases before
        { now with
          model := (rank.preparePromptCacheSave now.lastCommitOutcome (now.model, now.world)).2.1
          world := (rank.preparePromptCacheSave now.lastCommitOutcome (now.model, now.world)).2.2
          trace := .prepared :: now.trace } (some transaction) fenced := by
      refine ⟨hk.fence, ⟨.prepared :: acts, by simp [ht], by simp [Act.phase?, hsa],
        by simpa [Act.isCommitted] using hc, ?_⟩, ?_, nofun⟩
      · simpa [countP_cons, Act.isPrepared, Act.isRolledBack] using hp
      · rintro _ ⟨⟩
        rw [← hor]
        exact hr.prepared _ _ _ ho
    simp only [Except.toBool, if_true]
    cases hf : rank.validateCompatibility (rank.preparedPromptCacheManifest transaction)
        now.lastCommitOutcome with
    | ok _ => exact ⟨.ok transaction, _, rfl, hs⟩
    | error cause => exact ⟨.error cause, _, rfl, hs.giveBack fun former hh => hr.dropped _ _ _ hh⟩

/-- A vote was refused, or it failed and the rank has fenced itself already. -/
def Unagreed (phase : Phase) (fenced : Option Phase) (verdict : Except (SessionError E) Bool) :
    Prop :=
  verdict = .ok false ∨ (∃ cause, verdict = .error cause) ∧ fenced = some phase

variable {verdict : Except (SessionError E) Bool}

theorem agreePreflight (hk : Kept destination remembers phases before now none fenced)
    (hu : Unagreed .promptCacheSavePreflight fenced verdict)
    (result : Except (SessionError E) Bool) :
    ∃ cause after, (agreePreflight result verdict : SessionM μ ω E T Bool).rounds now =
        .done (.error cause, after) ∧
      Kept destination remembers phases before after none (some .promptCacheSavePreflight) := by
  rcases hu with rfl | ⟨⟨cause, rfl⟩, rfl⟩
  · cases result with
    | ok owning => exact ⟨_, _, rfl, hk.fenceAt _⟩
    | error failure => exact ⟨_, _, rfl, hk.fenceAt _⟩
  · cases result with
    | ok owning => exact ⟨_, _, rfl, hk⟩
    | error failure => exact ⟨_, _, rfl, hk.fenceAt _⟩

theorem agreePreparation {transaction : Option (Except (SessionError E) τ)}
    (hk : Kept destination remembers phases before now (transaction.bind Except.toOption) fenced)
    (hre : Reversible rank destination remembers)
    (hu : Unagreed .promptCacheSavePreparation fenced verdict) :
    ∃ cause after, (agreePreparation rank transaction verdict).rounds now =
        .done (.error cause, after) ∧
      Kept destination remembers phases before after none (some .promptCacheSavePreparation) := by
  have hr {held : τ} (hk : Kept destination remembers phases before now (some held) fenced) :=
    hk.giveBack fun former hh => hre.rolledBack held now.world former hh
  rcases hu with rfl | ⟨⟨cause, rfl⟩, rfl⟩
  · match transaction with
    | none => exact ⟨_, _, rfl, hk.fenceAt _⟩
    | some (.ok held) => exact ⟨_, _, rfl, (hr hk).fenceAt _⟩
    | some (.error failure) => exact ⟨_, _, rfl, hk.fenceAt _⟩
  · match transaction with
    | none => exact ⟨_, _, rfl, hk⟩
    | some (.ok held) => exact ⟨_, _, rfl, hr hk⟩
    | some (.error failure) => exact ⟨_, _, rfl, hk.fenceAt _⟩

theorem agreePublication (hk : Kept destination remembers phases before now held fenced)
    (hre : Reversible rank destination remembers)
    (hu : Unagreed .promptCacheSavePublication fenced verdict)
    (publication : Option (Except E Unit)) :
    ∃ cause after, (agreePublication rank held publication verdict).rounds now =
        .done (.error cause, after) ∧
      Kept destination remembers phases before after none (some .promptCacheSavePublication) := by
  obtain ⟨after, hro, hr⟩ := hk.rollbackAny hre
  rcases hu with rfl | ⟨⟨cause, rfl⟩, rfl⟩
  · match publication with
    | some (.error _) | none | some (.ok _) =>
      simp only [Session.agreePublication, rounds_bind, hro]
      exact ⟨_, _, rfl, hr.fenceAt _⟩
  · match publication with
    | some (.error failure) =>
      simp only [Session.agreePublication, rounds_bind, hro]
      exact ⟨_, _, rfl, hr.fenceAt _⟩
    | none | some (.ok _) =>
      simp only [Session.agreePublication, rounds_bind, hro, done_andThen]
      exact ⟨_, _, rfl, hr⟩

end Kept

variable {rank : SavingRank μ ω τ D I E T}

theorem owning_of_preflight [DecidableEq I] {owning : Bool} (hp : preflight rank = .ok owning) :
    owning = rank.ownsState := by
  have hs : ownsShard rank = .ok owning := by
    unfold preflight at hp
    cases hv : validateInputIdentity rank with
    | error cause => simp [hv, bind, Except.bind] at hp
    | ok _ => simpa [hv, bind, Except.bind] using hp
  unfold ownsShard at hs
  split at hs
  · rename_i ho _
    cases hse : rank.promptCacheSelected <;>
      cases hv : rank.validatePromptCacheModelIdentity <;>
        simp_all [bind, Except.bind, pure, Except.pure, throw, throwThe, MonadExceptOf.throw]
  · simp_all
  · cases hs

section Joint

variable {permitted : Rounds.Answers ι Ballot (Verdict T)} {ranks : ι → SavingRank μ ω τ D I E T}
  {destination : ω → δ} {remembers : τ → δ → Prop} {phases : List Phase}
  {before states : ι → State μ ω} {held : ι → Option τ}

def AllKept (destination : ω → δ) (remembers : τ → δ → Prop) (phases : List Phase)
    (before now : ι → State μ ω) (held : ι → Option τ) (fenced : Option Phase) : Prop :=
  ∀ i, Kept destination remembers phases (before i) (now i) (held i) fenced

def AllFenced (destination : ω → δ) (remembers : τ → δ → Prop) (before after : ι → State μ ω) :
    Prop :=
  ∃ phases phase, AllKept destination remembers phases before after (fun _ => none) (some phase)

/-- Votes of a save are agreed by all ranks or by none, and a failed one leaves all ranks fenced. -/
theorem jointly_agreeCacheControlPhase (hs : Sound permitted) (phase : Phase)
    (hk : AllKept destination remembers phases before states held none) {success : ι → Bool}
    {returned : (ι → Except (SessionError E) Bool) → (ι → State μ ω) → Prop}
    {stopped : (ι → SessionError E) → (ι → State μ ω) → Prop}
    (ha : (∀ i, success i = true) → ∀ now : ι → State μ ω,
      AllKept destination remembers (phase :: phases) before now held none →
      returned (fun _ => .ok true) now)
    (hu : ∀ (verdicts : ι → Except (SessionError E) Bool) (now : ι → State μ ω) fenced,
      (∀ i, Kept.Unagreed phase fenced (verdicts i)) →
      AllKept destination remembers (phase :: phases) before now held fenced →
      returned verdicts now) :
    Jointly permitted (fun i => agreeCacheControlPhase (ranks i) phase (success i)) states returned
      stopped := by
  refine .bind (jointly_modify (Jointly.bind (jointly_ask ?_)))
  intro verdict hp
  have he := fun i => (hk i).enter phase
  match verdict, hp with
  | .error cause, _ =>
    exact .bind (jointly_modify (jointly_pure
      (hu _ _ (some phase) (fun i => .inr ⟨⟨_, rfl⟩, rfl⟩) fun i => (he i).fenceAt phase)))
  | .ok false, _ => exact jointly_pure (hu _ _ none (fun i => .inl rfl) he)
  | .ok true, hp => exact jointly_pure (ha (hs phase success hp) _ he)

/-- A rank without a fence whose owner committed its publication, and has nothing left to settle. -/
def Saved (rank : SavingRank μ ω τ D I E T) (phases : List Phase) (before after : State μ ω) : Prop :=
  after.controlFence = none ∧ Balance phases (if rank.ownsState then 1 else 0) 0 before after

theorem rounds_prepareTransaction {before now : State μ ω}
    (hk : Kept destination remembers phases before now none none)
    (hr : Reversible rank destination remembers) (owning : Bool) :
    ∃ result after, (prepareTransaction rank owning).rounds now = .done (.ok result, after) ∧
      result.isSome = owning ∧
      Kept destination remembers phases before after (result.bind Except.toOption) none := by
  cases owning with
  | false => exact ⟨none, now, rfl, rfl, hk⟩
  | true =>
    obtain ⟨result, after, hp, hs⟩ := hk.prepareSave hr
    simp only [prepareTransaction, if_true, rounds_bind, hp]
    exact ⟨some result, after, rfl, rfl, hs⟩

theorem rounds_publishTransaction {before now : State μ ω} {held : Option τ}
    (hk : Kept destination remembers phases before now held none)
    (hr : Reversible rank destination remembers) :
    ∃ result after, (publishTransaction rank held).rounds now = .done (.ok result, after) ∧
      result.1.isSome = held.isSome ∧
      Kept destination remembers phases before after result.1 none := by
  cases held with
  | none => exact ⟨(none, none), now, rfl, rfl, hk⟩
  | some transaction =>
    refine ⟨_, _, rfl, rfl, hk.fence, hk.balance, ?_, nofun⟩
    rintro _ ⟨⟩
    exact hr.published _ _ _ (hk.remembered _ rfl)

theorem rounds_commitTransaction {before now : State μ ω} {held : Option τ}
    (hk : Kept destination remembers phases before now held none)
    (ho : held.isSome = rank.ownsState) :
    ∃ result after, (commitTransaction rank held).rounds now = .done (.ok result, after) ∧
      Saved rank phases before after := by
  obtain ⟨acts, ht, hs, hc, hp⟩ := hk.balance
  cases held with
  | none =>
    refine ⟨none, now, rfl, hk.fence, acts, ht, hs, ?_⟩
    rw [← ho]
    exact ⟨hc, hp⟩
  | some transaction =>
    refine ⟨_, _, rfl, hk.fence, .committed :: acts, ?_⟩
    rw [← ho]
    refine ⟨by simp [settleTransaction, ht], by simp [Act.phase?, hs], ?_, ?_⟩
    · simp [countP_cons, Act.isCommitted, hc]
    · simpa [Act.isPrepared, Act.isRolledBack] using hp

theorem jointly_passPreflight [DecidableEq I] (hso : Sound permitted)
    (hk : AllKept destination remembers phases before states (fun _ => none) none) :
    Jointly permitted (fun i => passPreflight (ranks i)) states
      (fun owning now => (∀ i, owning i = (ranks i).ownsState) ∧
        AllKept destination remembers (.promptCacheSavePreflight :: phases) before now
          (fun _ => none) none) fun _ => AllFenced destination remembers before := by
  refine .bind (jointly_agreeCacheControlPhase hso _ hk ?_ ?_)
  · intro hp now he
    have ho : ∀ i, preflight (ranks i) = .ok (ranks i).ownsState := by
      intro i
      have hs := hp i
      cases hr : preflight (ranks i) with
      | error cause => simp [hr, Except.toBool] at hs
      | ok owning => rw [owning_of_preflight hr]
    simp only [ho]
    exact jointly_pure ⟨fun _ => rfl, he⟩
  · intro verdicts now fenced hu he
    exact jointly_of_stopped _ (fun i => (he i).agreePreflight (hu i) _) fun _ _ hen => ⟨_, _, hen⟩

variable (rank)

theorem agreePreparation_agreed :
    ∀ {transaction : Option (Except (SessionError E) τ)},
      transaction.all Except.toBool = true →
      agreePreparation rank transaction (.ok true) = pure (transaction.bind Except.toOption) ∧
      (transaction.bind Except.toOption).isSome = transaction.isSome
  | none, _ => ⟨rfl, rfl⟩
  | some (.ok _), _ => ⟨rfl, rfl⟩

theorem agreePublication_agreed (held : Option τ) :
    ∀ {publication : Option (Except E Unit)}, publication.all Except.toBool = true →
      agreePublication rank held publication (.ok true) = pure ()
  | none, _ => rfl
  | some (.ok _), _ => rfl

theorem jointly_passPreparation (hso : Sound permitted)
    (hr : ∀ i, Reversible (ranks i) destination remembers)
    (hk : AllKept destination remembers phases before states (fun _ => none) none)
    (owning : ι → Bool) : Jointly permitted (fun i => passPreparation (ranks i) (owning i)) states
      (fun held now => (∀ i, (held i).isSome = owning i) ∧
        AllKept destination remembers (.promptCacheSavePreparation :: phases) before now held none)
      fun _ => AllFenced destination remembers before := by
  refine .bind (jointly_of_returned _
    (fun i => rounds_prepareTransaction (hk i) (hr i) (owning i)) ?_)
  intro transactions prepared hs
  refine .bind (jointly_agreeCacheControlPhase hso _ (fun i => (hs i).2) ?_ ?_)
  · intro hp now he
    simp only [fun i => (agreePreparation_agreed (ranks i) (hp i)).1]
    refine jointly_pure ⟨fun i => ?_, he⟩
    exact (agreePreparation_agreed (ranks i) (hp i)).2.trans (hs i).1
  · intro verdicts now fenced hu he
    exact jointly_of_stopped _ (fun i => (he i).agreePreparation (hr i) (hu i))
      fun _ _ hen => ⟨_, _, hen⟩

theorem jointly_passPublication (hso : Sound permitted)
    (hr : ∀ i, Reversible (ranks i) destination remembers)
    (hk : AllKept destination remembers phases before states held none) :
    Jointly permitted (fun i => passPublication (ranks i) (held i)) states
      (fun published now => (∀ i, (published i).isSome = (held i).isSome) ∧
        AllKept destination remembers (.promptCacheSavePublication :: phases) before now published
          none) fun _ => AllFenced destination remembers before := by
  refine .bind (jointly_of_returned _ (fun i => rounds_publishTransaction (hk i) (hr i)) ?_)
  intro published left hs
  refine .bind (jointly_agreeCacheControlPhase hso _ (fun i => (hs i).2) ?_ ?_)
  · intro hp now he
    simp only [fun i => agreePublication_agreed (ranks i) (published i).1 (hp i)]
    exact .bind (jointly_pure (jointly_pure ⟨fun i => (hs i).1, he⟩))
  · intro verdicts now fenced hu he
    exact .bind (jointly_of_stopped _
      (fun i => (he i).agreePublication (hr i) (hu i) _)
      fun _ _ hen => ⟨_, _, hen⟩)

theorem jointly_savePromptCacheDistributedInner [DecidableEq I] (hs : Sound permitted)
    (hr : ∀ i, Reversible (ranks i) destination remembers)
    (hu : ∀ i, (before i).controlFence = none)
    (hre : ∀ i outcome, (before i).lastCommitOutcome = some outcome →
      outcome.isIndeterminate = false) :
    Jointly permitted (fun i => savePromptCacheDistributedInner (ranks i) false) before
      (fun _ after => ∃ phases, ∀ i, Saved (ranks i) phases (before i) (after i))
      fun _ => AllFenced destination remembers before := by
  refine .bind (jointly_of_returned (fun i _ after => after = before i)
    (fun i => ⟨(), _, rounds_ensureCommitResolved (hu i) (hre i), rfl⟩) ?_)
  intro _ opened hse
  have hst : AllKept destination remembers [] before opened (fun _ => none) none := by
    intro i
    rw [hse i]
    exact .start (before i) (hu i)
  refine .bind (jointly_pure (Jointly.bind
    ((jointly_passPreflight hs hst).mono ?_ fun _ _ => id)))
  rintro owning _ ⟨ho, hp⟩
  refine .bind ((jointly_passPreparation hs hr hp owning).mono ?_ fun _ _ => id)
  rintro held _ ⟨hh, hpr⟩
  refine .bind ((jointly_passPublication hs hr hpr).mono ?_ fun _ _ => id)
  rintro published _ ⟨hsl, hpu⟩
  apply jointly_of_returned _ fun i => rounds_commitTransaction (hpu i)
    (((hsl i).trans (hh i)).trans (ho i))
  exact fun _ _ hsa => ⟨_, hsa⟩

end Joint

def Refuses (E T : Type) (state : State μ ω) : Prop :=
  (∃ cause, (beginCommitEpoch : SessionM μ ω E T Nat).rounds state = .done (.error cause, state)) ∧
  ∀ call : ControlCall, ∃ cause,
    (call.guard : SessionM μ ω E T Unit).rounds state = .done (.error cause, state)

theorem refuses_of_fence {state : State μ ω} {phase : Phase}
    (fenced : state.controlFence = some phase) : Refuses E T state := by
  have hn : state.controlFence ≠ none := by simp [fenced]
  obtain ⟨cause, hu⟩ := rounds_ensureCommitResolved_refused (E := E) (T := T) fun hr => hn hr.1
  refine ⟨rounds_beginCommitEpoch_refused fun _ ha => hn ha.fence, fun call => ?_⟩
  cases call with
  | loadPromptCache | savePromptCache =>
    simp only [ControlCall.guard, ensureControlUnfenced, rounds_bind, rounds_get,
      done_andThen, fenced]
    exact ⟨_, rfl⟩
  | _ => exact ⟨cause, hu⟩

/-- Any number of ranks, some of which own no state, save their prompt cache together. Either every
rank returns and every owner has committed, or every rank fails, nobody has committed, everything
prepared has been rolled back, the destination is what it was, and the session refuses all calls. -/
theorem save_is_all_or_nothing [DecidableEq I] (ranks : ι → SavingRank μ ω τ D I E T)
    (sessions : ι → State μ ω) (destination : ω → δ) (remembers : τ → δ → Prop)
    (reversible : ∀ i, Reversible (ranks i) destination remembers)
    (unfenced : ∀ i, (sessions i).controlFence = none)
    (resolved : ∀ i outcome, (sessions i).lastCommitOutcome = some outcome →
      outcome.isIndeterminate = false) :
    Jointly (agreement ι T) (fun i => savePromptCacheDistributedInner (ranks i) false) sessions
      (fun _ after => ∃ phases, ∀ i,
        Balance phases (if (ranks i).ownsState then 1 else 0) 0 (sessions i) (after i))
      fun _ after => ∃ phases, ∀ i, Balance phases 0 0 (sessions i) (after i) ∧
        destination (after i).world = destination (sessions i).world ∧ Refuses E T (after i) := by
  refine (jointly_savePromptCacheDistributedInner sound_agreement reversible unfenced
    resolved).mono ?_ ?_
  · rintro _ after ⟨phases, hs⟩
    exact ⟨phases, fun i => (hs i).2⟩
  · rintro _ after ⟨phases, phase, hk⟩
    exact ⟨phases, fun i => ⟨(hk i).balance, (hk i).unchanged rfl, refuses_of_fence (hk i).fence⟩⟩

/-- Two ranks over destinations that hold a number. Only the first owns state. -/
def numberedRank (second : Bool) : SavingRank Unit Nat Nat Unit Unit String Unit where
  transport _ := .contract "no agreement"
  inputIdentity := none
  committedPromptInputIdentity := none
  validatePromptInputDescriptor _ := .ok ()
  ownsState := !second
  ownsIdentity := !second
  promptCacheSelected := true
  validatePromptCacheModelIdentity := .ok ()
  preparePromptCacheSave _ left := (.ok left.2, left)
  preparedPromptCacheManifest _ := ()
  validateCompatibility _ _ := .ok ()
  publishPromptCacheSave former world := (.ok (), former, world + 1)
  commitPromptCacheSave _ world := world
  rollbackPromptCacheSave former _ := former
  dropPromptCacheSave former _ := former

def numberedSession : State Unit Nat where
  model := ()
  world := 3
  activeCommitEpoch := none
  nextCommitEpoch := 1
  lastCommitOutcome := none
  controlFence := none
  successfulStateRestorations := some 0
  trace := []

theorem save_is_all_or_nothing_numbered : Jointly (agreement Bool Unit)
      (fun second => savePromptCacheDistributedInner (numberedRank second) false)
      (fun _ => numberedSession) (fun _ after => ∃ phases, ∀ second,
        Balance phases (if (numberedRank second).ownsState then 1 else 0) 0 numberedSession
          (after second))
      fun _ after => ∃ phases, ∀ second, Balance phases 0 0 numberedSession (after second) ∧
        (after second).world = numberedSession.world ∧ Refuses String Unit (after second) := by
  apply save_is_all_or_nothing numberedRank (fun _ => numberedSession) id (fun former old => former = old)
  · intro second
    refine ⟨?_, fun _ _ _ _ => rfl, fun _ _ _ => id, fun _ _ _ => id, fun _ _ _ => id⟩
    rintro _ _ _ ⟨⟩
    rfl
  · exact fun _ => rfl
  · exact fun _ => nofun

end Eredu.Session
