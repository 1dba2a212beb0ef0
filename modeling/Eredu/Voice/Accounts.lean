import Eredu.Voice.Publication

/-!
# Who holds what

`Accounts` connects a publication state to the reservations, input permits and transitions
that are held somewhere. Each operation moves them: what it is given it either keeps in what
it returns or gives back. An operation that commits nothing leaves the frontier of the state
as it was.
-/

namespace Eredu.Voice

open Effect

variable {S B κ α ρ ε : Type}

/-- The state without what admission writes: its counters, the mark of a pending permit and the
mark of a live transition. -/
def PublicationState.frontier (state : PublicationState S κ α ρ) : PublicationState S κ α ρ :=
  { state with
    busy := false
    input := state.input.map VoiceChatInputPermit.drop
    queue :=
      { state.queue with
        usage :=
          { queuedPublications := 0
            reservedPublications := 0
            queued _ := 0
            reserved _ := 0 } } }

def InputHeld [Zero α] (input : Option (Ingress α)) (inputs : List (VoiceChatInputPermit α)) :
    Prop :=
  match input with
  | none => inputs = []
  | some ingress => ∃ host : Host α, Sound host ∧ host.ingress = ingress ∧
      host.permit.toList = inputs

structure Accounts [Zero α] (serialized : ρ → Option Nat) (state : PublicationState S κ α ρ)
    (live : List VoiceChatPublicationCapacity) (inputs : List (VoiceChatInputPermit α))
    (transitions : Nat) : Prop where
  balanced : Balanced serialized state.queue live
  inputs : InputHeld state.input inputs
  transitions : transitions = if state.busy then 1 else 0

structure Steady [Zero α] (serialized : ρ → Option Nat) (frontier : PublicationState S κ α ρ)
    (live : List VoiceChatPublicationCapacity) (inputs : List (VoiceChatInputPermit α))
    (transitions : Nat) (state : PublicationState S κ α ρ) : Prop extends
    Accounts serialized state live inputs transitions where
  unmoved : state.frontier = frontier

/-- What an operation that fails without a commit leaves behind. -/
def Refused (kept : PublicationState S κ α ρ → Prop) (fault : Fault (VoiceChatPublicationError ε))
    (state : PublicationState S κ α ρ) : Prop :=
  Reported fault state ∧ kept state

variable {publication : VoiceChatConversationOutput α ρ}

namespace Publishing

/-- A computation that only looks. -/
def Reads {β : Type} (m : Publishing S κ α ρ ε β) (good : PublicationState S κ α ρ → β → Prop) :
    Prop :=
  ∀ state, m.Yields state (fun value after => after = state ∧ good state value)
    fun fault after => Reported fault after ∧ after = state

theorem Reads.bind {β γ : Type} {m : Publishing S κ α ρ ε β} {next : β → Publishing S κ α ρ ε γ}
    {good : PublicationState S κ α ρ → β → Prop} {goal : PublicationState S κ α ρ → γ → Prop}
    (first : Reads m good) (others : ∀ value, Reads (next value) goal) :
    Reads (m >>= next) goal := by
  intro state
  refine (first state).andThen ?_
  rintro value _ ⟨rfl, _⟩
  exact others value _

variable (outside : Outside S B κ α ρ ε)

theorem reads_branch : Reads (branch outside)
    fun state branch => branch.identity = state.identity ∧ branch.reservation = none ∧
      branch.inputPermit = none ∧ branch.slot = .empty := by
  intro state
  unfold branch
  rw [yields_bind, yields_get]
  split
  · exact ⟨⟨_, rfl⟩, rfl⟩
  · exact ⟨rfl, rfl, rfl, rfl, rfl⟩

theorem reads_validateDrain : Reads (validateDrain : Publishing S κ α ρ ε Unit) fun _ _ => True := by
  intro state
  unfold validateDrain
  rw [yields_bind, yields_get]
  split
  · exact ⟨⟨_, rfl⟩, rfl⟩
  split
  · exact ⟨⟨_, rfl⟩, rfl⟩
  · exact ⟨rfl, trivial⟩

theorem reads_admissible (branch : Branch B κ α ρ) :
    Reads (admissible branch : Publishing S κ α ρ ε Unit) fun _ _ => branch.reservation = none := by
  intro state
  unfold admissible
  rw [yields_bind, yields_get]
  split
  · exact ⟨⟨_, rfl⟩, rfl⟩
  split
  · exact ⟨⟨_, rfl⟩, rfl⟩
  rename_i unreserved
  exact ⟨rfl, by simpa using unreserved⟩

theorem reads_permitted (step : Step) :
    Reads (permitted step : Publishing S κ α ρ ε Unit) fun _ _ => True := by
  intro state
  unfold permitted
  rw [yields_bind, yields_get]
  split
  · exact ⟨rfl, trivial⟩
  split
  · exact ⟨⟨_, rfl⟩, rfl⟩
  split
  · exact reads_validateDrain state
  · exact ⟨rfl, trivial⟩

theorem reads_preparedAdmission (branch : Branch B κ α ρ) (work : Work κ α ρ) :
    Reads (preparedAdmission branch work : Publishing S κ α ρ ε Unit)
      fun _ _ => branch.reservation = none := by
  unfold preparedAdmission
  split
  · exact reads_validateDrain.bind fun _ => reads_admissible branch
  · exact reads_admissible branch

variable {outside} {capacity charged : VoiceChatPublicationCapacity}
  {permit : Option (VoiceChatInputPermit α)}

theorem charge_eq_ok {outcomes : Outcomes ε}
    (accepted : charge outside capacity permit publication outcomes = .ok charged) :
    charged = publication.payload outside.serialized ∧ ∀ kind, charged kind ≤ capacity kind := by
  obtain ⟨_, _, accepted⟩ := bind_eq_ok.mp accepted
  obtain ⟨_, prepared, accepted⟩ := bind_eq_ok.mp accepted
  obtain ⟨_, _, accepted⟩ := bind_eq_ok.mp accepted
  obtain rfl := Except.ok.inj accepted
  exact prepare_eq_ok prepared

end Publishing

variable [Zero α] {serialized : ρ → Option Nat} {state frontier : PublicationState S κ α ρ}
  {live : List VoiceChatPublicationCapacity} {inputs : List (VoiceChatInputPermit α)}
  {transitions : Nat} {capacity : VoiceChatPublicationCapacity}
  {permit : Option (VoiceChatInputPermit α)} {branch : Branch B κ α ρ}
  {stopped : Fault (VoiceChatPublicationError ε) → PublicationState S κ α ρ → Prop}

namespace InputHeld

variable {input : Option (Ingress α)}

theorem eq_nil {permit : VoiceChatInputPermit α} (hh : InputHeld input (permit :: inputs)) :
    inputs = [] := by
  cases input with
  | none => cases hh
  | some ingress =>
    obtain ⟨host, _, _, hs⟩ := hh
    cases out : host.permit with
    | none => simp [out] at hs
    | some other =>
      rw [out] at hs
      exact (List.cons.inj hs).2.symm

theorem drop {permit : VoiceChatInputPermit α} (hh : InputHeld input (permit :: inputs)) :
    InputHeld (input.map VoiceChatInputPermit.drop) inputs := by
  have hn := hh.eq_nil
  cases input with
  | none => cases hh
  | some ingress =>
    obtain ⟨host, hs, rfl, _⟩ := hh
    exact ⟨_, hs.abandon, rfl, hn.symm⟩

theorem reserve {ingress next : Ingress α} {permit : VoiceChatInputPermit α}
    (hh : InputHeld (some ingress) inputs) (hg : ingress.reserve = .ok (next, permit)) :
    InputHeld (some next) (permit :: inputs) := by
  obtain ⟨host, hs, rfl, hsa⟩ := hh
  have hi := (Ingress.reserve_eq_ok hg).1
  rw [hs.pending] at hi
  have hn : host.permit = none := by simpa using hi
  rw [hn] at hsa
  subst hsa
  exact ⟨_, hs.reserve hg, rfl, rfl⟩

theorem commit {ingress : Ingress α} {permit : VoiceChatInputPermit α}
    (hh : InputHeld (some ingress) (permit :: inputs)) :
    ∃ next, permit.commit ingress = some next ∧ InputHeld (some next) inputs := by
  have hn := hh.eq_nil
  obtain ⟨host, hso, rfl, hs⟩ := hh
  have out : host.permit = some permit := by
    cases out : host.permit with
    | none => simp [out] at hs
    | some other =>
      rw [out] at hs
      rw [(List.cons.inj hs).1]
  obtain ⟨next, hc, hk⟩ := hso.commit out
  exact ⟨next, hc, _, hk, rfl, hn.symm⟩

end InputHeld

def Slot.staging : Slot κ α ρ → Nat
  | .staged _ _ => 1
  | .admitted _ | .empty => 0

def Slot.holding : Slot κ α ρ → Nat
  | .staged _ _ | .admitted _ => 1
  | .empty => 0

variable {advance : VoiceChatAdvance ρ} {transition : Transition κ ρ} {retention : Except ε Unit}
  {retired : Except ε Unit} {work : Work κ α ρ}

namespace Publishing

theorem yields_reserve (ha : Steady serialized frontier live inputs transitions state) :
    (reserve capacity : Publishing S κ α ρ ε Unit).Yields state
      (fun _ => Steady serialized frontier (capacity :: live) inputs transitions)
      (Refused (Steady serialized frontier live inputs transitions)) := by
  obtain ⟨result, hr, hk⟩ := ha.balanced.reserve (ε := ε) capacity
  unfold reserve
  rw [yields_bind, yields_get]
  cases result with
  | error cause =>
    simp only [hr]
    exact ⟨⟨cause, rfl⟩, ha⟩
  | ok queue =>
    simp only [hr]
    obtain ⟨hb, ho, hl⟩ := hk queue rfl
    refine ⟨⟨hb, ha.inputs, ha.transitions⟩, ?_⟩
    simp only [← ha.unmoved, PublicationState.frontier, ho, hl]

theorem yields_release (ha : Steady serialized frontier (capacity :: live) inputs transitions state) :
    (release capacity).Yields state
      (fun _ => Steady serialized frontier live inputs transitions) stopped := by
  obtain ⟨queue, hr, hb, ho, hl, _⟩ := ha.balanced.release
  unfold release
  rw [yields_bind, yields_get]
  simp only [hr]
  refine ⟨⟨hb, ha.inputs, ha.transitions⟩, ?_⟩
  simp only [← ha.unmoved, PublicationState.frontier, ho, hl]

theorem yields_reserveInput (ha : Steady serialized frontier live inputs transitions state) :
    (reserveInput : Publishing S κ α ρ ε _).Yields state
      (fun permit => Steady serialized frontier live (permit :: inputs) transitions)
      (Refused (Steady serialized frontier live inputs transitions)) := by
  unfold reserveInput
  rw [yields_bind, yields_get]
  cases hgi : state.input with
  | none => exact ⟨⟨_, rfl⟩, ha⟩
  | some ingress =>
    have hh := ha.inputs
    rw [hgi] at hh
    cases hg : ingress.reserve with
    | error cause =>
      simp only [hg]
      exact ⟨⟨_, rfl⟩, ha⟩
    | ok result =>
      obtain ⟨next, permit⟩ := result
      simp only [hg]
      refine ⟨⟨ha.balanced, hh.reserve hg, ha.transitions⟩, ?_⟩
      obtain ⟨_, _, ⟨_, rfl⟩, _⟩ := Ingress.reserve_eq_ok hg
      simp only [← ha.unmoved, PublicationState.frontier, hgi]
      rfl

theorem yields_dropInput?
    (ha : Steady serialized frontier live (permit.toList ++ inputs) transitions state) :
    (dropInput? permit).Yields state
      (fun _ => Steady serialized frontier live inputs transitions) stopped := by
  cases permit with
  | none => exact ha
  | some permit =>
    refine ⟨⟨ha.balanced, ha.inputs.drop, ha.transitions⟩, ?_⟩
    simp only [← ha.unmoved, PublicationState.frontier, Option.map_map]
    congr 1

theorem yields_release? {reservation : Option VoiceChatPublicationCapacity}
    (ha : Steady serialized frontier (reservation.toList ++ live) inputs transitions state) :
    (release? reservation).Yields state
      (fun _ => Steady serialized frontier live inputs transitions) stopped := by
  cases reservation with
  | none => exact ha
  | some capacity => exact yields_release ha

theorem yields_dropTransition
    (ha : Steady serialized frontier live inputs (transitions + 1) state) :
    dropTransition.Yields state
      (fun _ => Steady serialized frontier live inputs transitions) stopped := by
  refine ⟨⟨ha.balanced, ha.inputs, ?_⟩, ha.unmoved⟩
  have hh := ha.transitions
  split at hh
  · simpa using hh
  · cases hh

theorem yields_dropWork
    (ha : Steady serialized frontier (work.output :: live) (work.input.toList ++ inputs)
      (transitions + 1) state) : (dropWork work).Yields state
      (fun _ => Steady serialized frontier live inputs transitions) stopped :=
  (yields_dropTransition ha).andThen fun _ _ hf =>
    (yields_release hf).andThen fun _ _ hr => yields_dropInput? hr

theorem yields_dropBranch (ha : Steady serialized frontier (branch.reservation.toList ++ live)
      (branch.inputPermit.toList ++ inputs) (transitions + branch.slot.staging) state) :
    (dropBranch branch).Yields state
      (fun _ => Steady serialized frontier live inputs transitions) stopped := by
  refine (yields_dropInput? ha).andThen fun _ _ hd => ?_
  refine (yields_release? hd).andThen fun _ _ hr => ?_
  cases hs : branch.slot with
  | staged transition publication =>
    rw [hs] at hr
    exact yields_dropTransition hr
  | admitted | empty =>
    rw [hs] at hr
    exact hr

theorem yields_claim {plan : κ → Except ε (Transition κ ρ)}
    (ha : Steady serialized frontier live inputs transitions state) : (claim plan).Yields state
      (fun _ => Steady serialized frontier live inputs (transitions + 1))
      (Refused (Steady serialized frontier live inputs transitions)) := by
  unfold claim
  rw [yields_bind, yields_get]
  by_cases hb : state.busy
  · rw [if_pos hb]
    exact ⟨⟨_, rfl⟩, ha⟩
  rw [if_neg hb]
  cases plan state.conversation with
  | error cause => exact ⟨⟨_, rfl⟩, ha⟩
  | ok transition =>
    have hn := ha.transitions
    rw [if_neg hb] at hn
    exact ⟨⟨ha.balanced, ha.inputs, by rw [hn, if_pos rfl]⟩, ha.unmoved⟩

variable (outside : Outside S B κ α ρ ε)

section

variable (ha : Steady serialized frontier live inputs transitions state)
include ha

theorem yields_preparePrefill {backboneTokens at_ : Nat} :
    (preparePrefill outside backboneTokens at_ capacity).Yields state
      (fun work => Steady serialized frontier (work.output :: live)
        (work.input.toList ++ inputs) (transitions + 1))
      (Refused (Steady serialized frontier live inputs transitions)) := by
  refine (yields_reserve ha).andThen fun _ _ hh => ?_
  rw [yields_bind, yields_attempt]
  refine (yields_claim hh).mono (fun _ _ => id) ?_
  rintro fault _ ⟨⟨cause, rfl⟩, hk⟩
  exact (yields_release hk).andThen fun _ _ hf => ⟨⟨cause, rfl⟩, hf⟩

theorem yields_reserveInput? :
    reserveInput?.Yields state
      (fun result after =>
        match result with
        | .ok permit => Steady serialized frontier live (permit.toList ++ inputs) transitions after
        | .error _ => Steady serialized frontier live inputs transitions after) stopped := by
  unfold reserveInput?
  rw [yields_bind, yields_attempt]
  refine (yields_reserveInput ha).mono (fun _ _ => id) ?_
  rintro fault _ ⟨⟨cause, rfl⟩, hk⟩
  simp only
  split
  · rename_i hi
    cases hi
  all_goals exact hk

theorem yields_selectNext :
    (selectNext outside advance capacity permit).Yields state
      (fun result after =>
        match result with
        | .ok _ => Steady serialized frontier live inputs (transitions + 1) after
        | .error _ => Steady serialized frontier live inputs transitions after)
      (Refused (Steady serialized frontier live inputs transitions)) := by
  unfold selectNext
  rw [yields_bind, yields_get]
  by_cases hb : state.busy
  · rw [if_pos hb]
    exact ⟨⟨_, rfl⟩, ha⟩
  rw [if_neg hb]
  split
  · exact ⟨⟨_, rfl⟩, ha⟩
  · exact ha
  · have hn := ha.transitions
    rw [if_neg hb] at hn
    exact ⟨⟨ha.balanced, ha.inputs, by rw [hn, if_pos rfl]⟩, ha.unmoved⟩

end

variable {step : Step}

theorem yields_keepInput
    (ha : Steady serialized frontier live (permit.toList ++ inputs) transitions state) :
    (keepInput step permit).Yields state
      (fun kept => Steady serialized frontier live (kept.toList ++ inputs) transitions)
      stopped := by
  unfold keepInput
  by_cases hr : retainsInput step
  · rw [if_pos hr]
    exact ha
  · rw [if_neg hr]
    exact (yields_dropInput? ha).andThen fun _ _ => id

section

variable (ha : Steady serialized frontier live inputs transitions state)
include ha

theorem yields_prepareNext :
    (prepareNext outside advance capacity).Yields state
      (fun result after =>
        match result with
        | .ok work => Steady serialized frontier (work.output :: live)
            (work.input.toList ++ inputs) (transitions + 1) after
        | .error _ => Steady serialized frontier live inputs transitions after)
      (Refused (Steady serialized frontier live inputs transitions)) := by
  refine (yields_reserve ha).andThen fun _ _ hc => ?_
  refine (yields_reserveInput? hc).andThen ?_
  rintro (cause | permit) _ hh
  · exact (yields_release hh).andThen fun _ _ hf => ⟨⟨cause, rfl⟩, hf⟩
  rw [yields_bind, yields_attempt]
  refine (yields_selectNext outside hh).mono ?_ ?_
  · rintro (blocked | ⟨kind, transition⟩) _ hk
    · exact (yields_dropInput? hk).andThen fun _ _ hd => (yields_release hd).andThen fun _ _ => id
    · exact (yields_keepInput hk).andThen fun _ _ => id
  · rintro fault _ ⟨⟨cause, rfl⟩, hk⟩
    exact (yields_dropInput? hk).andThen fun _ _ hd =>
      (yields_release hd).andThen fun _ _ hf => ⟨⟨cause, rfl⟩, hf⟩

theorem yields_mutate {change : κ → Except ε κ} : (mutate change retention).Yields state
      (fun _ after => Accounts serialized after live inputs transitions ∧
        after.queue = state.queue ∧ after.identity = state.identity)
      (Refused (Steady serialized frontier live inputs transitions)) := by
  unfold mutate
  rw [yields_bind, yields_get]
  by_cases hb : state.busy
  · rw [if_pos hb]
    exact ⟨⟨_, rfl⟩, ha⟩
  rw [if_neg hb]
  split
  · exact ⟨⟨_, rfl⟩, ha⟩
  split
  · exact ⟨⟨_, rfl⟩, ha⟩
  · exact ⟨⟨ha.balanced, ha.inputs, ha.transitions⟩, rfl, rfl⟩

end

def Holds (serialized : ρ → Option Nat) (frontier : PublicationState S κ α ρ)
    (live : List VoiceChatPublicationCapacity) (inputs : List (VoiceChatInputPermit α))
    (transitions : Nat) (branch : Branch B κ α ρ) : PublicationState S κ α ρ → Prop :=
  Steady serialized frontier (branch.reservation.toList ++ live)
    (branch.inputPermit.toList ++ inputs) (transitions + branch.slot.holding)

/-- A branch that holds anything was admitted. -/
def Tidy (branch : Branch B κ α ρ) : Prop :=
  branch.reservation = none → branch.inputPermit = none ∧ branch.slot = .empty

theorem yields_admitInput (branch : Branch B κ α ρ) {permit : VoiceChatInputPermit α}
    (hun : branch.inputPermit = none) (hr : branch.reservation = some capacity)
    (hsl : branch.slot.holding = 1)
    (ha : Steady serialized frontier (capacity :: live) (permit :: inputs) (transitions + 1)
      state) : (admitInput outside branch permit step).Yields state
      (fun result after => Holds serialized frontier live inputs transitions result.1 after ∧
        Tidy result.1) stopped := by
  unfold admitInput
  rw [yields_bind, yields_get]
  cases hg : state.input with
  | none =>
    have hh := ha.inputs
    rw [hg] at hh
    cases hh
  | some ingress =>
    simp only
    split
    · refine ⟨?_, fun hu => ?_⟩
      · unfold Holds
        simp only [hr, hsl]
        exact ha
      · cases hr.symm.trans hu
    · have hd : Steady _ _ _ ((some permit).toList ++ inputs) _ _ := ha
      refine (yields_dropInput? hd).andThen fun _ _ hd => ?_
      refine (yields_dropTransition hd).andThen fun _ _ hf => ⟨?_, fun hu => ?_⟩
      · unfold Holds
        simp only [hr, hun]
        exact hf
      · cases hr.symm.trans hu

theorem yields_admitPrepared (ht : Tidy branch)
    (ha : Steady serialized frontier (work.output :: (branch.reservation.toList ++ live))
      (work.input.toList ++ (branch.inputPermit.toList ++ inputs))
      (transitions + branch.slot.holding + 1) state) :
    (admitPrepared outside branch work).Yields state
      (fun result after => Holds serialized frontier live inputs transitions result.1 after ∧
        Tidy result.1) stopped := by
  unfold admitPrepared
  rw [yields_bind, yields_attempt]
  refine (reads_preparedAdmission branch work state).mono ?_ ?_
  · rintro _ _ ⟨rfl, hu⟩
    obtain ⟨hun, he⟩ := ht hu
    rw [hu, hun, he] at ha
    cases hg : work.input with
    | none =>
      rw [hg] at ha
      refine ⟨?_, nofun⟩
      simp only [hun]
      exact ha
    | some permit =>
      rw [hg] at ha
      exact yields_admitInput outside
        { branch with reservation := some work.output, slot := .admitted work.transition } hun
        rfl rfl ha
  · rintro fault _ ⟨⟨cause, rfl⟩, rfl⟩
    exact (yields_dropWork ha).andThen fun _ _ hd => ⟨hd, ht⟩

variable {reminder : Option (ρ × Nat)}

section

variable (ha : Steady serialized frontier live inputs transitions state)
include ha

theorem yields_claimStep : (claimStep outside step reminder capacity).Yields state
      (fun _ => Steady serialized frontier live inputs (transitions + 1))
      (Refused (Steady serialized frontier live inputs transitions)) := by
  unfold claimStep
  split
  · exact ⟨⟨_, rfl⟩, ha⟩
  · exact yields_claim ha

theorem yields_looseAdmission :
    (looseAdmission outside branch capacity permit step reminder).Yields state
      (fun _ after => Steady serialized frontier live inputs (transitions + 1) after ∧
        branch.reservation = none)
      (Refused (Steady serialized frontier live inputs transitions)) := by
  have had : (do
      admissible branch
      claimStep outside step reminder capacity : Publishing S κ α ρ ε _).Yields state
      (fun _ after => Steady serialized frontier live inputs (transitions + 1) after ∧
        branch.reservation = none)
      (Refused (Steady serialized frontier live inputs transitions)) := by
    refine .bind ((reads_admissible branch state).mono ?_ ?_)
    · rintro _ _ ⟨rfl, hu⟩
      exact (yields_claimStep outside ha).imp fun _ _ hc => ⟨hc, hu⟩
    · rintro fault _ ⟨hr, rfl⟩
      exact ⟨hr, ha⟩
  unfold looseAdmission
  split
  · refine .bind ((reads_permitted step state).mono ?_ ?_)
    · rintro _ _ ⟨rfl, _⟩
      exact had
    · rintro fault _ ⟨hr, rfl⟩
      exact ⟨hr, ha⟩
  · exact had

end

theorem yields_admitStep (ht : Tidy branch)
    (ha : Steady serialized frontier (capacity :: (branch.reservation.toList ++ live))
      (permit.toList ++ (branch.inputPermit.toList ++ inputs)) (transitions + branch.slot.holding)
      state) : (admitStep outside branch capacity permit step reminder).Yields state
      (fun result after => Holds serialized frontier live inputs transitions result.1 after ∧
        Tidy result.1) stopped := by
  unfold admitStep
  rw [yields_bind, yields_attempt]
  refine (yields_looseAdmission outside ha).mono ?_ ?_
  · rintro transition _ ⟨hc, hu⟩
    obtain ⟨hun, he⟩ := ht hu
    rw [hu, hun, he] at hc
    cases permit with
    | none =>
      refine ⟨?_, nofun⟩
      simp only [hun]
      exact hc
    | some permit =>
      exact yields_admitInput outside
        { branch with reservation := some capacity, slot := .admitted transition } hun rfl rfl hc
  · rintro fault _ ⟨⟨cause, rfl⟩, hk⟩
    exact (yields_release hk).andThen fun _ _ hf =>
      (yields_dropInput? hf).andThen fun _ _ hd => ⟨hd, ht⟩

theorem yields_stage {frame : OwnedHostOutput α ρ}
    (ha : Steady serialized frontier live inputs (transitions + 1) state) :
    (stage outside transition frame retention).Yields state
      (fun slot => Steady serialized frontier live inputs (transitions + slot.holding))
      stopped := by
  unfold stage
  split
  · exact ha
  · exact (yields_dropTransition ha).andThen fun _ _ => id

section

variable (ha : Steady serialized frontier (branch.reservation.toList ++ live)
  (branch.inputPermit.toList ++ inputs) (transitions + branch.slot.staging) state)
include ha

theorem yields_discardBranch : (discardBranch branch retired).Yields state
      (fun _ => Steady serialized frontier live inputs transitions)
      (Refused (Steady serialized frontier live inputs transitions)) := by
  refine (yields_dropBranch ha).andThen fun _ _ hd => ?_
  cases retired with
  | ok _ => exact hd
  | error failure => exact ⟨⟨.backend failure, rfl⟩, hd⟩

theorem yields_refuse {cause : VoiceChatPublicationError ε}
    {returned : Unit → PublicationState S κ α ρ → Prop} :
    (refuse branch retired cause).Yields state returned
      (Refused (Steady serialized frontier live inputs transitions)) :=
  (yields_discardBranch ha).andThen fun _ _ hd => ⟨⟨cause, rfl⟩, hd⟩

end

def InputMoved (permit : Option (VoiceChatInputPermit α)) (before after : Option (Ingress α)) :
    Prop :=
  match permit with
  | none => after = before
  | some permit => ∃ ingress, before = some ingress ∧ after = permit.commit ingress

structure Advanced (before : PublicationState S κ α ρ) (branch : Branch B κ α ρ)
    (publication : VoiceChatConversationOutput α ρ) (after : PublicationState S κ α ρ) : Prop where
  neural : after.neural = adopted outside before.neural branch.neural publication
  conversation : ∃ transition, branch.slot = .staged transition publication ∧
    after.conversation = transition.candidate
  input : InputMoved branch.inputPermit before.input after.input
  epoch : after.epoch = before.epoch + 1
  output : after.queue.output =
    before.queue.output ++ [⟨publication, publication.payload outside.serialized⟩]
  identity : after.identity = before.identity
  limits : after.queue.limits = before.queue.limits

theorem yields_commitInput
    (ha : Accounts serialized state live (permit.toList ++ inputs) transitions) :
    (commitInput permit).Yields state
      (fun _ after => Accounts serialized after live inputs transitions ∧
        after = { state with input := after.input } ∧
        InputMoved permit state.input after.input) stopped := by
  unfold commitInput
  rw [yields_bind, yields_get]
  cases permit with
  | none => exact ⟨ha, rfl, rfl⟩
  | some permit =>
    have hh := ha.inputs
    cases hg : state.input with
    | none =>
      rw [hg] at hh
      cases hh
    | some ingress =>
      rw [hg] at hh
      obtain ⟨next, hc, hk⟩ := hh.commit
      simp only [hc]
      exact ⟨⟨ha.balanced, hk, ha.transitions⟩, rfl, ingress, rfl, hc.symm⟩

theorem yields_publish {charged : VoiceChatPublicationCapacity}
    (hr : branch.reservation = some capacity) (hst : branch.slot = .staged transition publication)
    (he : charged = publication.payload outside.serialized)
    (hf : ∀ kind, charged kind ≤ capacity kind)
    (ha : Accounts outside.serialized state (branch.reservation.toList ++ live)
      (branch.inputPermit.toList ++ inputs) (transitions + branch.slot.staging)) :
    (publish outside branch transition publication capacity charged).Yields state
      (fun _ after => Accounts outside.serialized after live inputs transitions ∧
        Advanced outside state branch publication after) stopped := by
  rw [hr, hst] at ha
  have hm : Accounts outside.serialized
      { state with
        neural := adopted outside state.neural branch.neural publication
        epoch := state.epoch + 1 } (capacity :: live) (branch.inputPermit.toList ++ inputs)
      (transitions + 1) := ⟨ha.balanced, ha.inputs, ha.transitions⟩
  refine (yields_commitInput hm).andThen ?_
  rintro _ heard ⟨hk, hs, input⟩
  rw [yields_bind, yields_modify]
  obtain ⟨queue, hc, hb, ho, hl⟩ := hk.balanced.commit he hf
  unfold commitQueue
  rw [yields_bind, yields_get]
  simp only [hc]
  have hq : heard.queue = state.queue := by rw [hs]
  have hi : transitions = 0 := by
    have hh := hk.transitions
    split at hh <;> omega
  refine ⟨⟨hb, hk.inputs, ?_⟩, ?_, ⟨transition, hst, rfl⟩, input, ?_, ?_, ?_, ?_⟩
  · simpa using hi
  · exact congrArg PublicationState.neural hs
  · exact congrArg PublicationState.epoch hs
  · rw [hq] at ho
    rw [← he]
    exact ho
  · show heard.identity = state.identity
    rw [hs]
  · rw [hq] at hl
    exact hl

/-- A commit moves everything on, or leaves the frontier and gives back what the branch held. -/
theorem yields_commitBranch {identity : Nat} {outcomes : Outcomes ε}
    (ha : Steady outside.serialized frontier (branch.reservation.toList ++ live)
      (branch.inputPermit.toList ++ inputs) (transitions + branch.slot.staging) state) :
    (commitBranch outside identity branch outcomes).Yields state
      (fun _ after => Accounts outside.serialized after live inputs transitions ∧
        ∃ publication, Advanced outside state branch publication after)
      (Refused (Steady outside.serialized frontier live inputs transitions)) := by
  unfold commitBranch
  rw [yields_bind, yields_get]
  split
  · exact yields_refuse ha
  split
  · exact yields_refuse ha
  split
  · rename_i capacity transition publication hr hs
    split
    · exact yields_refuse ha
    split
    · exact yields_refuse ha
    rename_i charged hac
    obtain ⟨hsa, hf⟩ := charge_eq_ok hac
    split
    · rename_i cause _
      exact (yields_dropBranch ha).andThen fun _ _ hd => ⟨⟨.backend cause, rfl⟩, hd⟩
    · refine (yields_publish outside hr hs hsa hf ha.toAccounts).imp ?_
      rintro _ _ ⟨hk, had⟩
      exact ⟨hk, publication, had⟩
  · exact yields_refuse ha

theorem yields_popOutput (ha : Accounts serialized state live inputs transitions) :
    popOutput.Yields state
      (fun delivered after => Accounts serialized after live inputs transitions ∧
        state.queue.output.map Queued.output =
          delivered.toList ++ after.queue.output.map Queued.output ∧
        after.queue.limits = state.queue.limits) stopped := by
  obtain ⟨delivered, queue, hp, hb, hs, hl⟩ := ha.balanced.pop
  unfold popOutput
  rw [yields_bind, yields_get]
  simp only [hp]
  exact ⟨⟨hb, ha.inputs, ha.transitions⟩, hs, hl⟩

end Publishing

end Eredu.Voice
