import Eredu.Foundation.Effect

/-!
# Guarantees along a trace

A computation passes points of interest on its way. A relation graded by the list
of points says how the state moved while these points were passed; it composes
along the computation as the lists are appended. Steps without points are covered
by the plain guarantees of the relation at the empty list.
-/

namespace Eredu.Effect

variable {σ ε α β γ : Type}

/-- The points passed after a computation that returned. -/
def seen (m : Effect σ ε α) (state : σ) (later : α → σ → List γ) : List γ :=
  match m.outcome state with
  | (.ok value, after) => later value after
  | (.error _, _) => []

variable (relation : List γ → σ → σ → Prop)

/-- A relation between states that composes along appended lists of points. -/
structure Graded : Prop where
  nil : ∀ state, relation [] state state
  append : ∀ {first second : List γ} {before middle after : σ}, relation first before middle →
    relation second middle after → relation (first ++ second) before after

/-- Every run moves the state along `relation` at the points it passes, also when it stops. -/
def Traces (m : Effect σ ε α) (points : σ → List γ) : Prop :=
  ∀ state, m.Yields state (fun _ => relation (points state) state)
    (fun _ => relation (points state) state)

variable {relation : List γ → σ → σ → Prop}

theorem Graded.isPreorder (hg : Graded relation) : IsPreorder σ (relation []) where
  refl := hg.nil
  trans _ _ _ hf hs := hg.append hf hs

variable {m : Effect σ ε α}

theorem Guarantee.traces (hg : Guarantee (relation []) m) : Traces relation m fun _ => [] := hg

variable {points : σ → List γ}

theorem Traces.final (ht : Traces relation m points) (state : σ) :
    relation (points state) state (m.final state) :=
  (ht state).final

theorem Traces.attempt (ht : Traces relation m points) : Traces relation m.attempt points := by
  intro state
  rw [yields_attempt]
  refine (ht state).mono (fun _ _ => id) fun fault _ ha => ?_
  cases fault <;> exact ha

variable {next : β → Effect σ ε α} {m : Effect σ ε β} {rest : β → σ → List γ}

section

variable (hg : Graded relation)
include hg

/-- From one state: the points of a computation and, once it returned with `fact`, those of what
follows. -/
theorem Graded.yields_bind {state : σ} {points first : List γ}
    (hs : points = first ++ m.seen state rest) (fact : β → σ → Prop)
    (ho : m.Yields state (fun value after => relation first state after ∧ fact value after)
      fun _ => relation first state)
    (hc : ∀ value after, fact value after → (next value).Yields after
      (fun _ => relation (rest value after) after) fun _ => relation (rest value after) after) :
    (m >>= next).Yields state (fun _ => relation points state) fun _ => relation points state := by
  rw [Effect.yields_bind, hs]
  unfold Yields at ho ⊢
  dsimp only [seen] at ho ⊢
  generalize m.outcome state = result at ho ⊢
  obtain ⟨fault | value, after⟩ := result
  · simpa using ho
  · obtain ⟨hop, hh⟩ := ho
    exact (hc value after hh).mono (fun _ _ hl => hg.append hop hl) fun _ _ hl => hg.append hop hl

theorem Traces.bind {first : σ → List γ} (ho : Traces relation m first)
    (hc : ∀ value, Traces relation (next value) (rest value)) :
    Traces relation (m >>= next) fun state => first state ++ m.seen state rest := fun state =>
  hg.yields_bind rfl (fun _ _ => True)
    ((ho state).mono (fun _ _ hm => ⟨hm, trivial⟩) fun _ _ => id)
    fun value after _ => hc value after

theorem Guarantee.bindTraces (ho : Guarantee (relation []) m)
    (hc : ∀ value, Traces relation (next value) (rest value)) :
    Traces relation (m >>= next) fun state => m.seen state rest :=
  ho.traces.bind hg hc

theorem Traces.bindSilent (ho : Traces relation m points)
    (hc : ∀ value, Guarantee (relation []) (next value)) : Traces relation (m >>= next) points := by
  intro state
  have ht := ho.bind hg (fun value => (hc value).traces) state
  have hs : m.seen state (fun _ _ => ([] : List γ)) = [] := by
    unfold seen
    split <;> rfl
  simpa only [hs, List.append_nil] using ht

end

end Eredu.Effect
