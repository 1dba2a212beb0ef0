import Mathlib.Tactic

/-!
# Participants that meet in rounds

Every participant of a collective protocol runs its own program. Now and then it
enters a round of some kind with a contribution of its own, waits until all the
others have entered a round, and goes on with the answer the round gives.
`Rounds` is one participant's program: a finite tree that branches on answers.

`Meets` is what it means that a family of such programs runs to its end together.
Whatever answers a round may give, all participants enter a round of the same
kind next, or all of them have returned. Nobody waits for a peer that has
returned or that waits in a round of another kind.

Programs that also keep a state and may stop early are `Session` computations
over these trees. `Jointly` reads a family of them: either all participants
return, or all of them stop.
-/

namespace Eredu

/-- One participant's program: it returns, or enters a round and goes on with the answer. -/
inductive Rounds {κ : Type} (υ answer : κ → Type) (ρ : Type) : Type where
  | done (result : ρ)
  | enter (kind : κ) (contribution : υ kind) (next : answer kind → Rounds υ answer ρ)

namespace Rounds

variable {κ : Type} {υ answer : κ → Type} {ρ ρ' : Type}

def andThen : Rounds υ answer ρ → (ρ → Rounds υ answer ρ') → Rounds υ answer ρ'
  | .done result, next => next result
  | .enter kind contribution rest, next =>
      .enter kind contribution fun value => (rest value).andThen next

@[simp] theorem done_andThen (result : ρ) (next : ρ → Rounds υ answer ρ') :
    (done result).andThen next = next result := rfl

instance : Monad (Rounds υ answer) where
  pure := .done
  bind := andThen

def ask (kind : κ) (contribution : υ kind) : Rounds υ answer (answer kind) :=
  .enter kind contribution .done

section Family

variable {ι : Type}

/-- The answers a round may give to the contributions of all participants. -/
abbrev Answers (ι : Type) (υ answer : κ → Type) : Type :=
  (kind : κ) → (ι → υ kind) → answer kind → Prop

/-- Under every permitted answer the programs stay in rounds of one kind until all have returned,
and what they return together satisfies `post`. -/
inductive Meets (permitted : Answers ι υ answer) (post : (ι → ρ) → Prop) :
    (ι → Rounds υ answer ρ) → Prop where
  | done (results : ι → ρ) (holds : post results) : Meets permitted post fun i => .done (results i)
  | enter (kind : κ) (contributions : ι → υ kind) (next : ι → answer kind → Rounds υ answer ρ)
      (rest : ∀ value, permitted kind contributions value →
        Meets permitted post fun i => next i value) :
      Meets permitted post fun i => .enter kind (contributions i) (next i)

variable {permitted : Answers ι υ answer} {programs : ι → Rounds υ answer ρ}

theorem Meets.mono {post weaker : (ι → ρ) → Prop}
    (hm : Meets permitted post programs) (hi : ∀ results, post results → weaker results) :
    Meets permitted weaker programs := by
  induction hm with
  | done results hh => exact .done results (hi results hh)
  | enter kind contributions next _ ih => exact .enter kind contributions next ih

theorem Meets.andThen {post : (ι → ρ') → Prop} {next : ι → ρ → Rounds υ answer ρ'}
    (hm : Meets permitted
      (fun results => Meets permitted post fun i => next i (results i)) programs) :
    Meets permitted post fun i => (programs i).andThen (next i) := by
  induction hm with
  | done results hh => exact hh
  | enter kind contributions rest _ ih => exact .enter kind contributions _ ih

/-- One joint run: in every round the participants get one of the permitted answers. -/
inductive Runs (permitted : Answers ι υ answer) :
    (ι → Rounds υ answer ρ) → (ι → ρ) → Prop where
  | done {programs : ι → Rounds υ answer ρ} {results : ι → ρ}
      (same : ∀ i, programs i = .done (results i)) : Runs permitted programs results
  | enter {programs : ι → Rounds υ answer ρ} {results : ι → ρ} (kind : κ) (value : answer kind)
      {contributions : ι → υ kind} {next : ι → answer kind → Rounds υ answer ρ}
      (same : ∀ i, programs i = .enter kind (contributions i) (next i))
      (permission : permitted kind contributions value)
      (rest : Runs permitted (fun i => next i value) results) : Runs permitted programs results

/-- A joint run up to some point, and what is left of the programs there. -/
inductive Reaches (permitted : Answers ι υ answer) :
    (ι → Rounds υ answer ρ) → (ι → Rounds υ answer ρ) → Prop where
  | here {programs : ι → Rounds υ answer ρ} : Reaches permitted programs programs
  | enter {programs left : ι → Rounds υ answer ρ} (kind : κ) (value : answer kind)
      {contributions : ι → υ kind} {next : ι → answer kind → Rounds υ answer ρ}
      (same : ∀ i, programs i = .enter kind (contributions i) (next i))
      (permission : permitted kind contributions value)
      (rest : Reaches permitted (fun i => next i value) left) : Reaches permitted programs left

theorem Meets.runs [Nonempty ι] {post : (ι → ρ) → Prop}
    {results : ι → ρ} (hm : Meets permitted post programs)
    (run : Runs permitted programs results) : post results := by
  have some : ι := Classical.arbitrary ι
  induction hm generalizing results with
  | done returned hh =>
    cases run with
    | done hs =>
      rw [show results = returned from funext fun i => (Rounds.done.inj (hs i)).symm]
      exact hh
    | enter _ _ hs => cases hs some
  | enter kind contributions next _ ih =>
    cases run with
    | done hs => cases hs some
    | @enter _ _ kind' value contributions' next' hs hp hr =>
      obtain ⟨rfl, _, _⟩ := Rounds.enter.inj (hs some)
      have ha : contributions = contributions' ∧ next = next' := by
        constructor <;> funext i
        · exact eq_of_heq (Rounds.enter.inj (hs i)).2.1
        · exact eq_of_heq (Rounds.enter.inj (hs i)).2.2
      obtain ⟨rfl, rfl⟩ := ha
      exact ih value hp hr

end Family

end Rounds

/-- A participant with a state of its own that may stop with an error. Writes survive the error. -/
abbrev Participant {κ : Type} (υ answer : κ → Type) (σ ε : Type) : Type → Type :=
  ExceptT ε (StateT σ (Rounds υ answer))

namespace Participant

variable {κ : Type} {υ answer : κ → Type} {σ ε α β : Type} (m : Participant υ answer σ ε α)
  (state : σ)

def rounds : Rounds υ answer (Except ε α × σ) :=
  m.run.run state

def ask (kind : κ) (contribution : υ kind) : Participant υ answer σ ε (answer kind) :=
  ExceptT.lift (StateT.lift (Rounds.ask kind contribution))

variable (operation : σ → α × σ)

/-- Replaces the state by what an operation of the participant leaves, and returns its result. -/
def act : Participant υ answer σ ε α :=
  ExceptT.mk fun state => .done (.ok (operation state).1, (operation state).2)

/-- Goes on with both endings of a computation, as matching on a returned `Result` does. -/
def attempt : Participant υ answer σ ε (Except ε α) :=
  ExceptT.mk fun state => (m.rounds state).andThen fun ending => .done (.ok ending.1, ending.2)

theorem rounds_bind (next : α → Participant υ answer σ ε β) (state : σ) :
    (m >>= next).rounds state = (m.rounds state).andThen fun ending =>
      match ending with
      | (.ok value, state) => (next value).rounds state
      | (.error cause, state) => .done (.error cause, state) := by
  show Rounds.andThen (m.rounds state) _ = _
  congr
  funext ending
  rcases ending with ⟨_ | _, _⟩ <;> rfl

@[simp] theorem rounds_pure (value : α) (state : σ) :
    (pure value : Participant υ answer σ ε α).rounds state = .done (.ok value, state) := rfl

@[simp] theorem rounds_get :
    (get : Participant υ answer σ ε σ).rounds state = .done (.ok state, state) := rfl

@[simp] theorem rounds_modify (change : σ → σ) (state : σ) :
    (modify change : Participant υ answer σ ε PUnit).rounds state =
      .done (.ok ⟨⟩, change state) := rfl

@[simp] theorem rounds_act : (act operation : Participant υ answer σ ε α).rounds state =
      .done (.ok (operation state).1, (operation state).2) := rfl

section Family

variable {ι : Type} {permitted : Rounds.Answers ι υ answer}

/-- The computations meet until the end and all return, or all stop. -/
def Jointly (permitted : Rounds.Answers ι υ answer) (m : ι → Participant υ answer σ ε α)
    (states : ι → σ) (returned : (ι → α) → (ι → σ) → Prop)
    (stopped : (ι → ε) → (ι → σ) → Prop) : Prop :=
  Rounds.Meets permitted
    (fun endings =>
      (∃ values after, (endings = fun i => (.ok (values i), after i)) ∧ returned values after) ∨
      (∃ causes after, (endings = fun i => (.error (causes i), after i)) ∧ stopped causes after))
    fun i => (m i).rounds (states i)

variable {m : ι → Participant υ answer σ ε α} {states : ι → σ}
  {returned : (ι → α) → (ι → σ) → Prop} {stopped : (ι → ε) → (ι → σ) → Prop}

theorem Jointly.mono (hj : Jointly permitted m states returned stopped)
    {weaker : (ι → α) → (ι → σ) → Prop} {weaker' : (ι → ε) → (ι → σ) → Prop}
    (hr : ∀ values after, returned values after → weaker values after)
    (hst : ∀ causes after, stopped causes after → weaker' causes after) :
    Jointly permitted m states weaker weaker' := by
  apply Rounds.Meets.mono hj
  rintro endings (⟨values, after, hs, hh⟩ | ⟨causes, after, hs, hh⟩)
  · exact .inl ⟨values, after, hs, hr _ _ hh⟩
  · exact .inr ⟨causes, after, hs, hst _ _ hh⟩

theorem Jointly.bind {next : ι → α → Participant υ answer σ ε β}
    {returned' : (ι → β) → (ι → σ) → Prop} (hj : Jointly permitted m states
      (fun values after => Jointly permitted (fun i => next i (values i)) after returned' stopped)
      stopped) : Jointly permitted (fun i => m i >>= next i) states returned' stopped := by
  apply Rounds.Meets.andThen
  apply Rounds.Meets.mono hj
  rintro endings (⟨values, after, rfl, hh⟩ | ⟨causes, after, rfl, hh⟩)
  · exact hh
  · exact .done _ (.inr ⟨causes, after, rfl, hh⟩)

theorem jointly_pure {values : ι → α} (hh : returned values states) :
    Jointly permitted (fun i => pure (values i)) states returned stopped :=
  .done _ (.inl ⟨values, states, rfl, hh⟩)

theorem jointly_throw {causes : ι → ε} (hh : stopped causes states) :
    Jointly permitted (fun i => throw (causes i)) states returned stopped :=
  .done _ (.inr ⟨causes, states, rfl, hh⟩)

theorem jointly_get {returned : (ι → σ) → (ι → σ) → Prop} (hh : returned states states) :
    Jointly permitted (fun _ => get) states returned stopped :=
  .done _ (.inl ⟨states, states, rfl, hh⟩)

theorem jointly_modify {change : ι → σ → σ} {returned : (ι → PUnit) → (ι → σ) → Prop}
    (hh : returned (fun _ => ⟨⟩) fun i => change i (states i)) :
    Jointly permitted (fun i => modify (change i)) states returned stopped :=
  .done _ (.inl ⟨fun _ => ⟨⟩, fun i => change i (states i), rfl, hh⟩)

theorem jointly_act {operation : ι → σ → α × σ}
    (hh : returned (fun i => (operation i (states i)).1) fun i => (operation i (states i)).2) :
    Jointly permitted (fun i => act (operation i)) states returned stopped :=
  .done _ (.inl ⟨_, _, rfl, hh⟩)

theorem jointly_ask {kind : κ} {contributions : ι → υ kind}
    {returned : (ι → answer kind) → (ι → σ) → Prop}
    (hh : ∀ value, permitted kind contributions value → returned (fun _ => value) states) :
    Jointly permitted (fun i => ask kind (contributions i)) states returned stopped :=
  .enter kind contributions _ fun value hp =>
    .done _ (.inl ⟨fun _ => value, states, rfl, hh value hp⟩)

theorem jointly_of_returned (post : ι → α → σ → Prop)
    (he : ∀ i, ∃ value after, (m i).rounds (states i) = .done (.ok value, after) ∧
      post i value after)
    (hh : ∀ values after, (∀ i, post i (values i) (after i)) → returned values after) :
    Jointly permitted m states returned stopped := by
  choose values after hs hp using he
  unfold Jointly
  simp only [hs]
  exact .done _ (.inl ⟨values, after, rfl, hh values after hp⟩)

theorem jointly_of_stopped (post : ι → σ → Prop)
    (he : ∀ i, ∃ cause after, (m i).rounds (states i) = .done (.error cause, after) ∧ post i after)
    (hh : ∀ causes after, (∀ i, post i (after i)) → stopped causes after) :
    Jointly permitted m states returned stopped := by
  choose causes after hs hp using he
  unfold Jointly
  simp only [hs]
  exact .done _ (.inr ⟨causes, after, rfl, hh causes after hp⟩)

/-- A computation whose endings are matched on gives all participants the same kind of ending. -/
theorem jointly_attempt {returned : (ι → Except ε α) → (ι → σ) → Prop}
    (hj : Jointly permitted m states (fun values after => returned (fun i => .ok (values i)) after)
      fun causes after => returned (fun i => .error (causes i)) after) :
    Jointly permitted (fun i => attempt (m i)) states returned stopped := by
  apply Rounds.Meets.andThen
  apply Rounds.Meets.mono hj
  rintro endings (⟨values, after, rfl, hh⟩ | ⟨causes, after, rfl, hh⟩)
  · exact .done _ (.inl ⟨_, after, rfl, hh⟩)
  · exact .done _ (.inl ⟨_, after, rfl, hh⟩)

end Family

end Participant

end Eredu
