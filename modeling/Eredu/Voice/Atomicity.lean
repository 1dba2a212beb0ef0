import Eredu.Voice.Accounts

/-!
# Bounded, ordered and atomic output

`World` is a publication state together with everything that clients hold of it, in any
number and order. A run is a list of requests. No run stops on a subtraction below zero,
the counters stay within the limits, a commit moves everything on or nothing, and outputs
are delivered once, in the order of their commits.
-/

namespace Eredu.Voice

open Effect Publishing List Option

/-- A publication state with the objects that clients hold, and what a run has done so far. -/
structure World (S B κ α ρ : Type) where
  state : PublicationState S κ α ρ
  permits : List VoiceChatPublicationCapacity
  inputs : List (VoiceChatInputPermit α)
  works : List (Work κ α ρ)
  branches : List (Branch B κ α ρ)
  /-- Completion gates that outlived their branch. -/
  gates : List (Transition κ ρ)
  committed : List (VoiceChatConversationOutput α ρ)
  delivered : List (VoiceChatConversationOutput α ρ)

inductive Request (B κ α ρ ε : Type) where
  | reserve (capacity : VoiceChatPublicationCapacity)
  | dropPermit (permit : Nat)
  | reserveInput
  | dropInput (input : Nat)
  | preparePrefill (backboneTokens at_ : Nat) (capacity : VoiceChatPublicationCapacity)
  | prepareNext (advance : VoiceChatAdvance ρ) (capacity : VoiceChatPublicationCapacity)
  | dropWork (work : Nat)
  | branch
  | execute (branch : Nat) (change : B → B)
  | admitPrepared (branch work : Nat)
  | admitStep (branch permit : Nat) (step : Step) (reminder : Option (ρ × Nat))
  | admitInput (branch permit input : Nat) (step : Step)
  | stage (branch : Nat) (frame : OwnedHostOutput α ρ) (retention : Except ε Unit)
  | dropGate (branch : Nat)
  | dropOrphan (gate : Nat)
  | commit (identity branch : Nat) (outcomes : Outcomes ε)
  | discard (branch : Nat) (retired : Except ε Unit)
  | deliver
  | mutate (change : κ → Except ε κ) (retention : Except ε Unit)
  | submit (samples : List α) (sampleRate : Nat)
  | finish (policy : PcmFinishPolicy)
  | close

variable {S B κ α ρ ε : Type}

def Slot.gate : Slot κ α ρ → List (Transition κ ρ)
  | .admitted transition => [transition]
  | .staged _ _ | .empty => []

def Slot.publication : Slot κ α ρ → List (VoiceChatConversationOutput α ρ)
  | .staged _ publication => [publication]
  | .admitted _ | .empty => []

namespace World

/-- Runs an operation on the state. `none` is a panic. -/
def settle {β : Type} (world : World S B κ α ρ) (m : Publishing S κ α ρ ε β)
    (returned : β → World S B κ α ρ → World S B κ α ρ)
    (refused : World S B κ α ρ → World S B κ α ρ) : Option (World S B κ α ρ) :=
  match m.outcome world.state with
  | (.ok value, state) => some (returned value { world with state })
  | (.error (.error _), state) => some (refused { world with state })
  | (.error (.panic _), _) => none

def withInput (world : World S B κ α ρ)
    (change : Ingress α → Except VoiceChatInputError (Ingress α)) : World S B κ α ρ :=
  match world.state.input with
  | none => world
  | some ingress =>
    match change ingress with
    | .error _ => world
    | .ok ingress => { world with state := { world.state with input := some ingress } }

variable [Zero α] (outside : Outside S B κ α ρ ε) (world : World S B κ α ρ)

def perform : Request B κ α ρ ε → Option (World S B κ α ρ)
  | .reserve capacity =>
    world.settle (Publishing.reserve capacity : Publishing S κ α ρ ε Unit)
      (fun _ world => { world with permits := capacity :: world.permits }) id
  | .dropPermit permit =>
    match world.permits[permit]? with
    | none => some world
    | some capacity =>
      { world with permits := world.permits.eraseIdx permit }.settle
        (release capacity : Publishing S κ α ρ ε Unit) (fun _ => id) id
  | .reserveInput =>
    world.settle (Publishing.reserveInput : Publishing S κ α ρ ε _)
      (fun permit world => { world with inputs := permit :: world.inputs }) id
  | .dropInput input =>
    match world.inputs[input]? with
    | none => some world
    | some permit =>
      { world with inputs := world.inputs.eraseIdx input }.settle
        (dropInput? (some permit) : Publishing S κ α ρ ε Unit) (fun _ => id) id
  | .preparePrefill backboneTokens at_ capacity =>
    world.settle (Publishing.preparePrefill outside backboneTokens at_ capacity)
      (fun work world => { world with works := work :: world.works }) id
  | .prepareNext advance capacity =>
    world.settle (Publishing.prepareNext outside advance capacity)
      (fun result world =>
        match result with
        | .ok work => { world with works := work :: world.works }
        | .error _ => world) id
  | .dropWork work =>
    match world.works[work]? with
    | none => some world
    | some held =>
      { world with works := world.works.eraseIdx work }.settle
        (Publishing.dropWork held : Publishing S κ α ρ ε Unit) (fun _ => id) id
  | .branch =>
    world.settle (Publishing.branch outside)
      (fun branch world => { world with branches := branch :: world.branches }) id
  | .execute branch change =>
    match world.branches[branch]? with
    | none => some world
    | some held =>
      some { world with
             branches := { held with neural := change held.neural } ::
               world.branches.eraseIdx branch }
  | .admitPrepared branch work =>
    match world.branches[branch]?, world.works[work]? with
    | some held, some prepared =>
      { world with
        branches := world.branches.eraseIdx branch
        works := world.works.eraseIdx work }.settle (Publishing.admitPrepared outside held prepared)
        (fun result world => { world with branches := result.1 :: world.branches }) id
    | _, _ => some world
  | .admitStep branch permit step reminder =>
    match world.branches[branch]?, world.permits[permit]? with
    | some held, some capacity =>
      { world with
        branches := world.branches.eraseIdx branch
        permits := world.permits.eraseIdx permit }.settle
        (Publishing.admitStep outside held capacity none step reminder)
        (fun result world => { world with branches := result.1 :: world.branches }) id
    | _, _ => some world
  | .admitInput branch permit input step =>
    match world.branches[branch]?, world.permits[permit]?, world.inputs[input]? with
    | some held, some capacity, some heard =>
      { world with
        branches := world.branches.eraseIdx branch
        permits := world.permits.eraseIdx permit
        inputs := world.inputs.eraseIdx input }.settle
        (Publishing.admitStep outside held capacity (some heard) step none)
        (fun result world => { world with branches := result.1 :: world.branches }) id
    | _, _, _ => some world
  | .stage branch frame retention =>
    match world.branches[branch]? with
    | none => some world
    | some held =>
      match held.slot with
      | .admitted transition =>
        { world with branches := world.branches.eraseIdx branch }.settle
          (Publishing.stage outside transition frame retention)
          (fun slot world => { world with branches := { held with slot } :: world.branches }) id
      | _ => some world
  | .dropGate branch =>
    match world.branches[branch]? with
    | none => some world
    | some held =>
      match held.slot with
      | .admitted _ =>
        { world with
          branches := { held with slot := .empty } :: world.branches.eraseIdx branch }.settle
          (dropTransition : Publishing S κ α ρ ε Unit) (fun _ => id) id
      | _ => some world
  | .dropOrphan gate =>
    match world.gates[gate]? with
    | none => some world
    | some _ =>
      { world with gates := world.gates.eraseIdx gate }.settle
        (dropTransition : Publishing S κ α ρ ε Unit) (fun _ => id) id
  | .commit identity branch outcomes =>
    match world.branches[branch]? with
    | none => some world
    | some held =>
      { world with
        branches := world.branches.eraseIdx branch
        gates := Slot.gate held.slot ++ world.gates }.settle
        (commitBranch outside identity held outcomes)
        (fun _ world => { world with committed := world.committed ++ Slot.publication held.slot }) id
  | .discard branch retired =>
    match world.branches[branch]? with
    | none => some world
    | some held =>
      { world with
        branches := world.branches.eraseIdx branch
        gates := Slot.gate held.slot ++ world.gates }.settle
        (discardBranch held retired : Publishing S κ α ρ ε Unit) (fun _ => id) id
  | .deliver =>
    world.settle (popOutput : Publishing S κ α ρ ε _)
      (fun output world => { world with delivered := world.delivered ++ output.toList }) id
  | .mutate change retention =>
    world.settle (Publishing.mutate change retention : Publishing S κ α ρ ε Unit) (fun _ => id) id
  | .submit samples sampleRate =>
    some (world.withInput fun ingress => ingress.submit outside.format samples sampleRate)
  | .finish policy => some (world.withInput fun ingress => ingress.finish policy)
  | .close => some (world.withInput fun ingress => .ok ingress.close)

def run (requests : List (Request B κ α ρ ε)) : Option (World S B κ α ρ) :=
  requests.foldlM (perform outside) world

def start (state : PublicationState S κ α ρ) : World S B κ α ρ :=
  { state
    permits := []
    inputs := []
    works := []
    branches := []
    gates := []
    committed := []
    delivered := [] }

end World

variable (world : World S B κ α ρ)

namespace World

def live : List VoiceChatPublicationCapacity :=
  world.permits ++ (world.works.map Work.output ++
    world.branches.flatMap fun branch => branch.reservation.toList)

def heldInputs : List (VoiceChatInputPermit α) :=
  world.inputs ++ (world.works.flatMap (fun work => work.input.toList) ++
    world.branches.flatMap fun branch => branch.inputPermit.toList)

def transitions : Nat :=
  world.works.length + ((world.branches.map fun branch => branch.slot.holding).sum +
    world.gates.length)

end World

variable {β : Type}

theorem perm_front (first second third rest : List β) :
    (first ++ (second ++ (third ++ rest))).Perm (third ++ (first ++ (second ++ rest))) :=
  (perm_append_comm_assoc second third rest).append_left first |>.trans
    (perm_append_comm_assoc first third (second ++ rest))

theorem perm_eraseIdx {items : List β} {index : Nat} {item : β} (hf : items[index]? = some item) :
    items.Perm (item :: items.eraseIdx index) := by
  obtain ⟨hi, rfl⟩ := List.getElem?_eq_some_iff.mp hf
  exact (getElem_cons_eraseIdx_perm hi).symm

namespace World

variable {world : World S B κ α ρ} {branch : Branch B κ α ρ} {work : Work κ α ρ} {index : Nat}

abbrev without (world : World S B κ α ρ) (index : Nat) : World S B κ α ρ :=
  { world with branches := world.branches.eraseIdx index }

section

variable (hf : world.branches[index]? = some branch)
include hf

theorem live_branch :
    world.live.Perm (branch.reservation.toList ++ (world.without index).live) := by
  have ht := (perm_eraseIdx hf).flatMap_right fun branch => branch.reservation.toList
  exact ((ht.append_left _).append_left _).trans (perm_front _ _ _ _)

theorem heldInputs_branch :
    world.heldInputs.Perm (branch.inputPermit.toList ++ (world.without index).heldInputs) := by
  have ht := (perm_eraseIdx hf).flatMap_right fun branch => branch.inputPermit.toList
  exact ((ht.append_left _).append_left _).trans (perm_front _ _ _ _)

theorem transitions_branch :
    world.transitions = (world.without index).transitions + branch.slot.holding := by
  have ht := ((perm_eraseIdx hf).map fun branch => branch.slot.holding).sum_eq
  rw [map_cons, sum_cons] at ht
  unfold transitions
  simp only [ht]
  omega

end

theorem live_permit {capacity : VoiceChatPublicationCapacity}
    (hf : world.permits[index]? = some capacity) : world.live.Perm (capacity ::
      { world with permits := world.permits.eraseIdx index }.live) :=
  (perm_eraseIdx hf).append_right _

theorem heldInputs_input {permit : VoiceChatInputPermit α}
    (hf : world.inputs[index]? = some permit) : world.heldInputs.Perm (permit ::
      { world with inputs := world.inputs.eraseIdx index }.heldInputs) :=
  (perm_eraseIdx hf).append_right _

section

variable (hf : world.works[index]? = some work)
include hf

theorem live_work :
    world.live.Perm (work.output :: { world with works := world.works.eraseIdx index }.live) := by
  have ht := (perm_eraseIdx hf).map Work.output
  exact ((ht.append_right _).append_left _).trans perm_middle

theorem heldInputs_work : world.heldInputs.Perm (work.input.toList ++
      { world with works := world.works.eraseIdx index }.heldInputs) := by
  have ht := (perm_eraseIdx hf).flatMap_right fun work => work.input.toList
  have hs := (ht.append_right
    (world.branches.flatMap fun branch => branch.inputPermit.toList)).append_left world.inputs
  rw [flatMap_cons, append_assoc] at hs
  exact hs.trans (perm_append_comm_assoc _ _ _)

theorem transitions_work : world.transitions =
      { world with works := world.works.eraseIdx index }.transitions + 1 := by
  have ht := (perm_eraseIdx hf).length_eq
  rw [length_cons] at ht
  unfold transitions
  simp only [ht]
  omega

end

end World

variable {state : PublicationState S κ α ρ} {serialized : ρ → Option Nat}

theorem Steady.perm [Zero α] {frontier : PublicationState S κ α ρ}
    {live others : List VoiceChatPublicationCapacity}
    {inputs otherInputs : List (VoiceChatInputPermit α)} {transitions otherTransitions : Nat}
    (ha : Steady serialized frontier live inputs transitions state) (hsa : live.Perm others)
    (hs : inputs.Perm otherInputs) (hc : transitions = otherTransitions) :
    Steady serialized frontier others otherInputs otherTransitions state := by
  refine ⟨⟨ha.balanced.perm hsa, ?_, hc ▸ ha.transitions⟩, ha.unmoved⟩
  have hh := ha.inputs
  -- With one permit at most, there is only one order.
  cases inputs with
  | nil => rwa [← nil_perm.mp hs] at *
  | cons permit rest =>
    obtain rfl := hh.eq_nil
    rwa [← singleton_perm.mp hs]

section Runs

theorem queue_of_frontier {other : PublicationState S κ α ρ}
    (same : state.frontier = other.frontier) :
    state.queue.output = other.queue.output ∧ state.queue.limits = other.queue.limits :=
  ⟨congrArg (fun state => state.queue.output) same, congrArg (fun state => state.queue.limits) same⟩

variable [Zero α] (outside : Outside S B κ α ρ ε) (limits : VoiceChatPublicationLimits)

structure Kept (world : World S B κ α ρ) : Prop where
  accounts : Accounts outside.serialized world.state world.live world.heldInputs world.transitions
  tidy : ∀ branch ∈ world.branches, Tidy branch
  log : world.committed = world.delivered ++ world.state.queue.output.map Queued.output
  limits : world.state.queue.limits = limits

/-- A step that does not panic and keeps the accounts. -/
def Keeps (step : Option (World S B κ α ρ)) : Prop :=
  ∃ next, step = some next ∧ Kept outside limits next

namespace Kept

variable {outside} {limits : VoiceChatPublicationLimits} {world taken next : World S B κ α ρ}
  {index : Nat} {branch : Branch B κ α ρ} {state : PublicationState S κ α ρ}
  (hk : Kept outside limits world)

include hk

theorem steady :
    Steady outside.serialized world.state.frontier world.live world.heldInputs world.transitions
      world.state :=
  ⟨hk.accounts, rfl⟩

theorem moved
    (ha : Steady outside.serialized world.state.frontier next.live next.heldInputs next.transitions
      next.state) (ht : ∀ branch ∈ next.branches, Tidy branch)
    (hc : next.committed = world.committed) (hd : next.delivered = world.delivered) :
    Kept outside limits next := by
  obtain ⟨ho, hl⟩ := queue_of_frontier ha.unmoved
  refine ⟨ha.toAccounts, ht, ?_, hl.trans hk.limits⟩
  rw [hc, hd, ho, hk.log]

theorem settle {m : Publishing S κ α ρ ε β} {returned : β → World S B κ α ρ → World S B κ α ρ}
    {onValue : β → PublicationState S κ α ρ → Prop} (ht : ∀ branch ∈ taken.branches, Tidy branch)
    (hc : taken.committed = world.committed) (hd : taken.delivered = world.delivered)
    (hy : m.Yields taken.state onValue (Refused (Steady outside.serialized world.state.frontier
      taken.live taken.heldInputs taken.transitions))) (hr : ∀ value state, onValue value state →
      Kept outside limits (returned value { taken with state })) :
    Keeps outside limits (taken.settle m returned id) := by
  unfold Yields at hy
  unfold World.settle
  rcases run : m.outcome taken.state with ⟨fault | value, state⟩ <;> rw [run] at hy
  · obtain ⟨⟨cause, rfl⟩, ha⟩ := hy
    exact ⟨_, rfl, hk.moved ha ht hc hd⟩
  · exact ⟨_, rfl, hr value state hy⟩

theorem tidy_eraseIdx : ∀ branch ∈ world.branches.eraseIdx index, Tidy branch :=
  fun branch hm => hk.tidy branch (mem_of_mem_eraseIdx hm)

theorem take (hf : world.branches[index]? = some branch) :
    Holds outside.serialized world.state.frontier (world.without index).live
      (world.without index).heldInputs (world.without index).transitions branch world.state :=
  hk.steady.perm (World.live_branch hf) (World.heldInputs_branch hf) (World.transitions_branch hf)

theorem put (hh : Holds outside.serialized world.state.frontier taken.live taken.heldInputs
      taken.transitions branch state)
    (ht : Tidy branch) (ho : ∀ branch ∈ taken.branches, Tidy branch)
    (hc : taken.committed = world.committed) (hd : taken.delivered = world.delivered) :
    Kept outside limits { taken with state, branches := branch :: taken.branches } := by
  have hb : ({ taken with branches := branch :: taken.branches } :
      World S B κ α ρ).branches[0]? = some branch := rfl
  exact hk.moved (hh.perm (World.live_branch hb).symm (World.heldInputs_branch hb).symm
    (World.transitions_branch hb).symm) (forall_mem_cons.mpr ⟨ht, ho⟩) hc hd

theorem prepared {work : Work κ α ρ}
    (ha : Steady outside.serialized world.state.frontier (work.output :: world.live)
      (work.input.toList ++ world.heldInputs) (world.transitions + 1) state) :
    Kept outside limits { world with state, works := work :: world.works } := by
  refine hk.moved (ha.perm ?_ ?_ ?_) hk.tidy rfl rfl
  · exact perm_middle.symm
  · have hm := perm_append_comm_assoc work.input.toList world.inputs
      (world.works.flatMap (fun work => work.input.toList) ++
        world.branches.flatMap fun branch => branch.inputPermit.toList)
    rw [← append_assoc work.input.toList (world.works.flatMap _)] at hm
    exact hm
  · simp only [World.transitions, length_cons]
    omega

theorem newBranch : Keeps outside limits (world.perform outside .branch) := by
  simp only [World.perform]
  refine hk.settle hk.tidy rfl rfl ((reads_branch outside world.state).mono (fun _ _ => id) ?_) ?_
  · rintro fault _ ⟨hr, rfl⟩
    exact ⟨hr, hk.steady⟩
  · rintro branch _ ⟨rfl, _, hr, hi, hs⟩
    refine hk.put ?_ (fun _ => ⟨hi, hs⟩) hk.tidy rfl rfl
    unfold Holds
    rw [hr, hi, hs]
    exact hk.steady

theorem admitPrepared (work : Nat) :
    Keeps outside limits (world.perform outside (.admitPrepared index work)) := by
  simp only [World.perform]
  split
  · rename_i held prepared hf hl
    have hs : (world.without index).works[work]? = some prepared := hl
    have ha := (hk.take hf).perm
      (((World.live_work hs).append_left _).trans perm_middle)
      (((World.heldInputs_work hs).append_left _).trans (perm_append_comm_assoc _ _ _))
      ((congrArg (· + held.slot.holding) (World.transitions_work hs)).trans
        (add_right_comm _ _ _))
    exact hk.settle hk.tidy_eraseIdx rfl rfl
      (yields_admitPrepared outside (hk.tidy held (mem_of_getElem? hf)) ha)
      fun _ _ hh => hk.put hh.1 hh.2 hk.tidy_eraseIdx rfl rfl
  · exact ⟨world, rfl, hk⟩

theorem admitStep (permit : Nat) (step : Step) (reminder : Option (ρ × Nat)) :
    Keeps outside limits (world.perform outside (.admitStep index permit step reminder)) := by
  simp only [World.perform]
  split
  · rename_i held capacity hf hl
    have hs : (world.without index).permits[permit]? = some capacity := hl
    have ha := (hk.take hf).perm
      (((World.live_permit hs).append_left _).trans perm_middle) (.refl _) rfl
    exact hk.settle hk.tidy_eraseIdx rfl rfl
      (yields_admitStep outside (hk.tidy held (mem_of_getElem? hf)) ha)
      fun _ _ hh => hk.put hh.1 hh.2 hk.tidy_eraseIdx rfl rfl
  · exact ⟨world, rfl, hk⟩

theorem admitInput (permit input : Nat) (step : Step) :
    Keeps outside limits (world.perform outside (.admitInput index permit input step)) := by
  simp only [World.perform]
  split
  · rename_i held capacity loose hf hl hh
    have hs : (world.without index).permits[permit]? = some capacity := hl
    have hi : { world.without index with
        permits := world.permits.eraseIdx permit }.inputs[input]? = some loose := hh
    have ha := (hk.take hf).perm
      (((World.live_permit hs).append_left _).trans perm_middle)
      (((World.heldInputs_input hi).append_left _).trans perm_middle) rfl
    exact hk.settle hk.tidy_eraseIdx rfl rfl
      (yields_admitStep outside (hk.tidy held (mem_of_getElem? hf)) ha)
      fun _ _ hh => hk.put hh.1 hh.2 hk.tidy_eraseIdx rfl rfl
  · exact ⟨world, rfl, hk⟩

theorem stage (frame : OwnedHostOutput α ρ) (retention : Except ε Unit) :
    Keeps outside limits (world.perform outside (.stage index frame retention)) := by
  simp only [World.perform]
  split
  · exact ⟨world, rfl, hk⟩
  rename_i held hf
  have ht := hk.take hf
  cases hs : held.slot with
  | empty => exact ⟨world, rfl, hk⟩
  | staged _ _ => exact ⟨world, rfl, hk⟩
  | admitted transition =>
    unfold Holds at ht
    rw [hs] at ht
    refine hk.settle hk.tidy_eraseIdx rfl rfl (yields_stage outside ht) fun next state ha => ?_
    refine hk.put ha (fun hu => ?_) hk.tidy_eraseIdx rfl rfl
    have he := (hk.tidy held (mem_of_getElem? hf) hu).2
    rw [hs] at he
    cases he

theorem dropGate :
    Keeps outside limits (world.perform outside (.dropGate index : Request B κ α ρ ε)) := by
  simp only [World.perform]
  split
  · exact ⟨world, rfl, hk⟩
  rename_i held hf
  have ht := hk.take hf
  cases hs : held.slot with
  | empty => exact ⟨world, rfl, hk⟩
  | staged _ _ => exact ⟨world, rfl, hk⟩
  | admitted transition =>
    unfold Holds at ht
    rw [hs] at ht
    let left : Branch B κ α ρ := { held with slot := .empty }
    have hti : Tidy left := fun hu => ⟨(hk.tidy held (mem_of_getElem? hf) hu).1, rfl⟩
    refine hk.settle (forall_mem_cons.mpr ⟨hti, hk.tidy_eraseIdx⟩) rfl rfl
      (yields_dropTransition ht) fun _ state ha => ?_
    have hh : Holds outside.serialized world.state.frontier (world.without index).live
        (world.without index).heldInputs (world.without index).transitions left state := ha
    exact hk.put hh hti hk.tidy_eraseIdx rfl rfl

/-- What is left of a branch that is dropped: its gate, if the invocation is still running. -/
theorem takeAway (hf : world.branches[index]? = some branch) :
    let left := { world.without index with gates := branch.slot.gate ++ world.gates }
    Steady outside.serialized world.state.frontier (branch.reservation.toList ++ left.live)
      (branch.inputPermit.toList ++ left.heldInputs) (left.transitions + branch.slot.staging)
      world.state := by
  refine (hk.take hf).perm (.refl _) (.refl _) ?_
  cases hs : branch.slot <;>
    simp only [World.transitions, Slot.holding, Slot.staging, Slot.gate, length_append,
      length_cons, length_nil] <;> omega

theorem commit (identity : Nat) (outcomes : Outcomes ε) :
    Keeps outside limits (world.perform outside (.commit identity index outcomes)) := by
  simp only [World.perform]
  split
  · exact ⟨world, rfl, hk⟩
  rename_i held hf
  refine hk.settle hk.tidy_eraseIdx rfl rfl (yields_commitBranch outside (hk.takeAway hf)) ?_
  rintro _ state ⟨ha, publication, had⟩
  obtain ⟨transition, hs, _⟩ := had.conversation
  refine ⟨ha, hk.tidy_eraseIdx, ?_, had.limits.trans hk.limits⟩
  simp only [hs, Slot.publication, had.output, map_append, map_cons, map_nil, hk.log, append_assoc]

theorem withInput {change : Ingress α → Except VoiceChatInputError (Ingress α)}
    (hke : ∀ host : Host α, Sound host → ∀ next, change host.ingress = .ok next →
      ∃ after : Host α, Sound after ∧ after.ingress = next ∧ after.permit = host.permit) :
    Kept outside limits (world.withInput change) := by
  unfold World.withInput
  cases hg : world.state.input with
  | none => exact hk
  | some ingress =>
    simp only
    split
    · exact hk
    rename_i next hc
    have hh := hk.accounts.inputs
    rw [hg] at hh
    obtain ⟨host, hs, rfl, hsa⟩ := hh
    obtain ⟨after, hst, ingress, hp⟩ := hke host hs next hc
    exact ⟨⟨hk.accounts.balanced, ⟨after, hst, ingress, hp ▸ hsa⟩,
      hk.accounts.transitions⟩, hk.tidy, hk.log, hk.limits⟩

/-- No request breaks the accounts, and none panics. -/
theorem step (request : Request B κ α ρ ε) :
    Keeps outside limits (world.perform outside request) := by
  cases request <;> simp only [World.perform]
  case reserve capacity =>
    exact hk.settle hk.tidy rfl rfl (yields_reserve hk.steady) fun _ _ ha =>
      hk.moved ha hk.tidy rfl rfl
  case dropPermit permit =>
    split
    · exact ⟨world, rfl, hk⟩
    rename_i capacity hf
    have ha := hk.steady.perm (World.live_permit hf) (.refl _) rfl
    exact hk.settle hk.tidy rfl rfl (yields_release ha) fun _ _ ha => hk.moved ha hk.tidy rfl rfl
  case reserveInput =>
    exact hk.settle hk.tidy rfl rfl (yields_reserveInput hk.steady) fun _ _ ha =>
      hk.moved ha hk.tidy rfl rfl
  case dropInput input =>
    split
    · exact ⟨world, rfl, hk⟩
    rename_i permit hf
    have ha : Steady _ _ _ ((some permit).toList ++ _) _ _ :=
      hk.steady.perm (.refl _) (World.heldInputs_input hf) rfl
    exact hk.settle hk.tidy rfl rfl (yields_dropInput? ha) fun _ _ ha => hk.moved ha hk.tidy rfl rfl
  case preparePrefill backboneTokens at_ capacity =>
    exact hk.settle hk.tidy rfl rfl (yields_preparePrefill outside hk.steady) fun _ _ ha =>
      hk.prepared ha
  case prepareNext advance capacity =>
    refine hk.settle hk.tidy rfl rfl (yields_prepareNext outside hk.steady) ?_
    rintro (blocked | work) _ ha
    · exact hk.moved ha hk.tidy rfl rfl
    · exact hk.prepared ha
  case dropWork work =>
    split
    · exact ⟨world, rfl, hk⟩
    rename_i held hf
    have ha := hk.steady.perm (World.live_work hf) (World.heldInputs_work hf)
      (World.transitions_work hf)
    exact hk.settle hk.tidy rfl rfl (yields_dropWork ha) fun _ _ ha => hk.moved ha hk.tidy rfl rfl
  case branch => exact hk.newBranch
  case execute branch change =>
    split
    · exact ⟨world, rfl, hk⟩
    rename_i held hf
    have ht := hk.take hf
    let moved : Branch B κ α ρ := { held with neural := change held.neural }
    have hh : Holds outside.serialized world.state.frontier (world.without branch).live
        (world.without branch).heldInputs (world.without branch).transitions moved world.state := ht
    have hti : Tidy moved := hk.tidy held (mem_of_getElem? hf)
    exact ⟨_, rfl, hk.put hh hti hk.tidy_eraseIdx rfl rfl⟩
  case admitPrepared branch work => exact hk.admitPrepared work
  case admitStep branch permit step reminder => exact hk.admitStep permit step reminder
  case admitInput branch permit input step => exact hk.admitInput permit input step
  case stage branch frame retention => exact hk.stage frame retention
  case dropGate branch => exact hk.dropGate
  case dropOrphan gate =>
    split
    · exact ⟨world, rfl, hk⟩
    rename_i transition hf
    have hc : world.transitions =
        { world with gates := world.gates.eraseIdx gate }.transitions + 1 := by
      have hl := (perm_eraseIdx hf).length_eq
      rw [length_cons] at hl
      simp only [World.transitions]
      omega
    have ha := hk.steady.perm (.refl _) (.refl _) hc
    exact hk.settle hk.tidy rfl rfl (yields_dropTransition ha) fun _ _ ha =>
      hk.moved ha hk.tidy rfl rfl
  case commit identity branch outcomes => exact hk.commit identity outcomes
  case discard branch retired =>
    split
    · exact ⟨world, rfl, hk⟩
    rename_i held hf
    exact hk.settle hk.tidy_eraseIdx rfl rfl (yields_discardBranch (hk.takeAway hf)) fun _ _ ha =>
      hk.moved ha hk.tidy_eraseIdx rfl rfl
  case deliver =>
    refine hk.settle hk.tidy rfl rfl (yields_popOutput hk.accounts) ?_
    rintro output state ⟨ha, hp, hl⟩
    refine ⟨ha, hk.tidy, ?_, hl.trans hk.limits⟩
    rw [hk.log, hp, append_assoc]
  case mutate change retention =>
    refine hk.settle hk.tidy rfl rfl (yields_mutate hk.steady) ?_
    rintro _ state ⟨ha, hs, _⟩
    refine ⟨ha, hk.tidy, ?_, ?_⟩
    · simp only [id, hs, hk.log]
    · simp only [id, hs, hk.limits]
  case submit samples sampleRate =>
    exact ⟨_, rfl, hk.withInput fun host hs next ha => ⟨_, hs.submit ha, rfl, rfl⟩⟩
  case finish policy =>
    exact ⟨_, rfl, hk.withInput fun host hs next ha => ⟨_, hs.finish ha, rfl, rfl⟩⟩
  case close =>
    refine ⟨_, rfl, hk.withInput fun host hs next hc => ?_⟩
    obtain rfl := Except.ok.inj hc
    exact ⟨_, hs.close, rfl, rfl⟩

theorem run (requests : List (Request B κ α ρ ε)) :
    Keeps outside limits (world.run outside requests) := by
  induction requests generalizing world with
  | nil => exact ⟨world, rfl, hk⟩
  | cons request requests hre =>
    obtain ⟨next, hp, hs⟩ := hk.step request
    obtain ⟨final, ran, hr⟩ := hre hs
    refine ⟨final, ?_, hr⟩
    simp only [World.run, foldlM_cons, hp]
    exact ran

end Kept

variable (before : PublicationState S κ α ρ)

/-- What a branch held is free again. -/
structure Released (branch : Branch B κ α ρ) (after : PublicationState S κ α ρ) : Prop where
  credit : ∀ kind, before.queue.usage.reserved kind =
    (branch.reservation.toList.map fun capacity => capacity kind).sum +
      after.queue.usage.reserved kind
  slot : before.queue.usage.reservedPublications =
    branch.reservation.toList.length + after.queue.usage.reservedPublications
  input : branch.inputPermit.isSome →
    ∀ ingress, after.input = some ingress → ingress.pending = false
  transition : branch.slot.staging = 1 → after.busy = false

theorem Accounts.released {before after : PublicationState S κ α ρ}
    {branch : Branch B κ α ρ} {live : List VoiceChatPublicationCapacity}
    {inputs : List (VoiceChatInputPermit α)} {transitions : Nat}
    (hh : Accounts serialized before (branch.reservation.toList ++ live)
      (branch.inputPermit.toList ++ inputs) (transitions + branch.slot.staging))
    (hf : Accounts serialized after live inputs transitions) : Released before branch after where
  credit kind := by
    rw [hh.balanced.reserved, hf.balanced.reserved, map_append, sum_append]
  slot := by
    rw [hh.balanced.reservedPublications, hf.balanced.reservedPublications, length_append]
  input hhe ingress hg := by
    obtain ⟨permit, hli⟩ := isSome_iff_exists.mp hhe
    have ho := hh.inputs
    rw [hli, toList_some, singleton_append] at ho
    have hl := hf.inputs
    rw [ho.eq_nil, hg] at hl
    obtain ⟨host, hso, rfl, hi⟩ := hl
    rw [hso.pending, toList_eq_nil_iff.mp hi, isSome_none]
  transition hs := by
    have hc := hh.transitions
    have hl := hf.transitions
    by_contra hb
    rw [if_pos (Bool.not_eq_false _ ▸ hb)] at hl
    split at hc <;> omega

/-- A commit of the branch moves everything on, or reports an error and moves nothing. Either way
what the branch held is free. -/
def AllOrNothing (identity : Nat) (branch : Branch B κ α ρ) (outcomes : Outcomes ε) : Prop :=
  match (commitBranch outside identity branch outcomes).outcome before with
  | (.ok _, after) =>
    Released before branch after ∧ ∃ publication, Advanced outside before branch publication after
  | (.error (.error _), after) => Released before branch after ∧ after.frontier = before.frontier
  | (.error (.panic _), _) => False

structure Published (limits : VoiceChatPublicationLimits) (world : World S B κ α ρ) : Prop where
  within : ∀ kind, world.state.queue.usage.queued kind + world.state.queue.usage.reserved kind ≤
    limits.capacity kind
  slots : world.state.queue.usage.queuedPublications +
    world.state.queue.usage.reservedPublications ≤ limits.maxPublications
  queued : ∀ kind, world.state.queue.usage.queued kind =
    (world.state.queue.output.map fun item => item.output.payload outside.serialized kind).sum
  queuedPublications : world.state.queue.usage.queuedPublications = world.state.queue.output.length
  reserved : ∀ kind, world.state.queue.usage.reserved kind =
    (world.live.map fun capacity => capacity kind).sum
  reservedPublications : world.state.queue.usage.reservedPublications = world.live.length
  ordered : world.committed = world.delivered ++ world.state.queue.output.map Queued.output
  commits : ∀ branch ∈ world.branches, ∀ identity outcomes,
    AllOrNothing outside world.state identity branch outcomes

variable {limits : VoiceChatPublicationLimits}

variable {outside} in
theorem Kept.allOrNothing {world : World S B κ α ρ}
    {branch : Branch B κ α ρ} (kept : Kept outside limits world) (member : branch ∈ world.branches)
    (identity : Nat) (outcomes : Outcomes ε) :
    AllOrNothing outside world.state identity branch outcomes := by
  obtain ⟨index, found⟩ := mem_iff_getElem?.mp member
  have held := kept.takeAway found
  have settled : (commitBranch outside identity branch outcomes).Yields world.state _ _ :=
    yields_commitBranch outside held
  unfold Yields at settled
  unfold AllOrNothing
  split
  · rename_i run
    rw [run] at settled
    exact ⟨held.toAccounts.released settled.1, settled.2⟩
  · rename_i run
    rw [run] at settled
    exact ⟨held.toAccounts.released settled.2.toAccounts, settled.2.unmoved⟩
  · rename_i run
    rw [run] at settled
    obtain ⟨⟨cause, panicked⟩, _⟩ := settled
    cases panicked

variable {outside} in
theorem Kept.published {world : World S B κ α ρ}
    (kept : Kept outside limits world) : Published outside limits world where
  within kind := kept.limits ▸ kept.accounts.balanced.within kind
  slots := kept.limits ▸ kept.accounts.balanced.slots
  queued kind := by
    rw [kept.accounts.balanced.queued]
    refine congrArg List.sum (map_congr_left fun item member => ?_)
    rw [kept.accounts.balanced.charged item member]
  queuedPublications := kept.accounts.balanced.queuedPublications
  reserved := kept.accounts.balanced.reserved
  reservedPublications := kept.accounts.balanced.reservedPublications
  ordered := kept.log
  commits _ member identity outcomes := kept.allOrNothing member identity outcomes

theorem kept_start (hc : Queue.new limits =
      (.ok state.queue : Except (VoiceChatPublicationError ε) (Queue α ρ)))
    (hi : state.busy = false)
    (hu : ∀ ingress, state.input = some ingress → ∃ config, Ingress.new config = .ok ingress) :
    Kept outside limits (World.start state) := by
  have hh : InputHeld state.input [] := by
    cases hg : state.input with
    | none => rfl
    | some ingress =>
      obtain ⟨config, new⟩ := hu ingress hg
      exact ⟨_, sound_start new, rfl, rfl⟩
  have hb : Balanced outside.serialized state.queue [] := .new hc
  obtain ⟨hl, he⟩ := Queue.new_eq_ok hc
  refine ⟨⟨hb, hh, ?_⟩, forall_mem_nil _, ?_, hl⟩
  · simp only [World.start, hi]
    rfl
  · simp only [World.start, he, map_nil, append_nil]

/-- Whatever the requests and their outcomes, no run stops: output is within its limits, is
delivered once in the order of the commits, and goes with the model step. -/
theorem output_is_bounded_ordered_atomic {state : PublicationState S κ α ρ}
    (created : Queue.new limits =
      (.ok state.queue : Except (VoiceChatPublicationError ε) (Queue α ρ)))
    (idle : state.busy = false)
    (unheard : ∀ ingress, state.input = some ingress → ∃ config, Ingress.new config = .ok ingress)
    (requests : List (Request B κ α ρ ε)) :
    ∃ world, (World.start state).run outside requests = some world ∧
      Published outside limits world := by
  obtain ⟨world, ran, hk⟩ := (kept_start outside created idle unheard).run requests
  exact ⟨world, ran, hk.published⟩

/-- A neural state that counts its steps, and a conversation without policy. -/
def countingOutside : Outside Nat Nat Unit Int Unit Unit where
  format := { isFinite := fun _ => true, roundPcm := fun _ sample => sample }
  branch := .ok
  adopt _ branch := branch
  resetInterruptionFeedback := id
  pcmInputStatus _ := ⟨.f32, INPUT_FRAME_SAMPLES, 0, 0, false, 0, false⟩
  submitPcm branch _ _ := .ok branch
  finishPcm branch _ := .ok branch
  serialized _ := some 0
  planPrefill _ _ _ := .ok ((), ())
  planNext _ _ _ _ := .ok (.error .needsInput)
  admission _ _ := .ok ()
  spoken _ := 0
  commitReminder _ _ _ := .ok ((), none)
  observe _ _ _ := .ok ((), none, none)
  decode _ _ _ := .ok ((), none, none)
  settle _ _ _ := ()

def countingState : PublicationState Nat Unit Int Unit where
  identity := 0
  neural := 0
  conversation := ()
  busy := false
  input := none
  epoch := 0
  queue :=
    { limits := ⟨1, fun _ => 1⟩
      output := []
      usage :=
        { queuedPublications := 0
          reservedPublications := 0
          queued _ := 0
          reserved _ := 0 } }

/-- A prefill is given up, and another one is published and delivered. -/
def prefillTwice : List (Request Nat Unit Int Unit Unit) :=
  [.preparePrefill 1 0 fun _ => 1, .dropWork 0, .preparePrefill 1 0 fun _ => 1, .branch,
    .execute 0 (· + 1), .admitPrepared 0 0,
    .stage 0 ⟨.prefill 1, none, 0, 0, none, some [7], none, [], ()⟩ (.ok ()),
    .commit 0 0 ⟨.ok (), .ok (), .ok (), .ok ()⟩, .deliver]

theorem output_is_bounded_ordered_atomic_prefill :
    ∃ world, (World.start countingState).run countingOutside prefillTwice = some world ∧
      Published countingOutside ⟨1, fun _ => 1⟩ world ∧ world.state.neural = 1 ∧
      world.delivered.length = 1 := by
  have ran : ((World.start countingState).run countingOutside prefillTwice).map
      (fun world => (world.state.neural, world.delivered.length)) = some (1, 1) := rfl
  have hcr : Queue.new ⟨1, fun _ => 1⟩ = (.ok countingState.queue :
      Except (VoiceChatPublicationError Unit) (Queue Int Unit)) := rfl
  obtain ⟨world, run, hp⟩ :=
    output_is_bounded_ordered_atomic countingOutside hcr rfl nofun prefillTwice
  rw [run] at ran
  have hc := some.inj ran
  exact ⟨world, run, hp, congrArg Prod.fst hc, congrArg Prod.snd hc⟩

end Runs

end Eredu.Voice
