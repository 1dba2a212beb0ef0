import Eredu.Foundation.Effect

/-!
# Unanimity of decisions on a common view

Participants that decide from the same gathered frames, each comparing them with
its own, decide alike when two facts hold: participants with the same view decide
the same, and a participant that can see a different view fails. The lemmas about
`Except` loops say when such a participant's scan over the frames fails.
-/

namespace Eredu

open List

variable {ι ε α β ρ : Type}

/-- Either every participant fails, or all return the same value. -/
def Unanimous (results : ι → Except ε α) : Prop :=
  (∀ i, ∃ cause, results i = .error cause) ∨ ∃ value, ∀ i, results i = .ok value

variable {results : ι → Except ε α}

theorem unanimous_of_views {view : ι → β}
    (ha : ∀ i j value, view i = view j → results i = .ok value → results j = .ok value)
    (hdi : ∀ i j, view i ≠ view j → ∃ cause, results i = .error cause) : Unanimous results := by
  by_cases hc : ∀ i j, view i = view j
  · by_cases hf : ∀ i, ∃ cause, results i = .error cause
    · exact .inl hf
    obtain ⟨i, hs⟩ := not_forall.mp hf
    cases hd : results i with
    | error cause => exact absurd ⟨cause, hd⟩ hs
    | ok value => exact .inr ⟨value, fun j => ha i j value (hc i j) hd⟩
  · -- Whoever decides differs from one of the two who disagree.
    obtain ⟨first, ho⟩ := not_forall.mp hc
    obtain ⟨second, hdt⟩ := not_forall.mp ho
    refine .inl fun i => ?_
    by_cases hsa : view i = view first
    · exact hdi i second (hsa ▸ hdt)
    · exact hdi i first hsa

theorem mapError_eq_ok {result : Except ε α} {f : ε → β} {value : α} :
    result.mapError f = .ok value ↔ result = .ok value := by
  cases result <;> simp [Except.mapError]

theorem Unanimous.mapError (hu : Unanimous results) (f : ε → β) :
    Unanimous fun i => (results i).mapError f := by
  rcases hu with hf | ⟨value, hr⟩
  · refine .inl fun i => ?_
    obtain ⟨cause, hs⟩ := hf i
    exact ⟨f cause, congrArg (Except.mapError f) hs⟩
  · exact .inr ⟨value, fun i => congrArg (Except.mapError f) (hr i)⟩

variable {check : ρ → Except ε PUnit}

variable {items : List ρ}

theorem forM_eq_ok : items.forM check = .ok ⟨⟩ ↔ ∀ item ∈ items, check item = .ok ⟨⟩ := by
  induction items with
  | nil => simp [pure, Except.pure]
  | cons item rest ih =>
    cases hc : check item with
    | error cause => simp [hc, bind, Except.bind]
    | ok done => simpa [hc, bind, Except.bind] using ih

theorem exists_of_forM_error {cause : ε} (hf : items.forM check = .error cause) :
    ∃ item ∈ items, check item = .error cause := by
  induction items with
  | nil => cases hf
  | cons item rest ih =>
    cases hc : check item with
    | error other =>
      have hs : other = cause := by simpa [hc, bind, Except.bind] using hf
      exact ⟨item, mem_cons_self, hs ▸ hc⟩
    | ok done =>
      obtain ⟨later, hl, hr⟩ := ih (by simpa [hc, bind, Except.bind] using hf)
      exact ⟨later, mem_cons_of_mem _ hl, hr⟩

variable {item : ρ}

theorem forM_error (hl : item ∈ items) (hfa : ∃ cause, check item = .error cause) :
    ∃ cause, items.forM check = .error cause := by
  cases hc : items.forM check with
  | error cause => exact ⟨cause, rfl⟩
  | ok done =>
    obtain ⟨cause, hf⟩ := hfa
    have hp := forM_eq_ok.mp hc item hl
    rw [hp] at hf
    cases hf

/-- A fold fails when it meets an item that fails with every accumulator it may hold there. -/
theorem foldlM_error {step : β → ρ → Except ε β} {holds : β → Prop}
    (hk : ∀ state item next, holds state → step state item = .ok next → holds next)
    (hl : item ∈ items) (hfa : ∀ state, holds state → ∃ cause, step state item = .error cause)
    {state : β} (hs : holds state) : ∃ cause, items.foldlM step state = .error cause := by
  induction items generalizing state with
  | nil => cases hl
  | cons first rest ih =>
    rw [foldlM_cons]
    rcases mem_cons.mp hl with rfl | hla
    · obtain ⟨cause, hf⟩ := hfa state hs
      exact ⟨cause, by rw [hf]; rfl⟩
    · cases hm : step state first with
      | error cause => exact ⟨cause, rfl⟩
      | ok next => exact ih hla (hk state first next hs hm)

theorem mapM_eq_ok {f : ρ → Except ε β} {results : List β} :
    items.mapM f = .ok results ↔ List.Forall₂ (fun item result => f item = .ok result) items results := by
  induction items generalizing results with
  | nil =>
    rw [mapM_nil, forall₂_nil_left_iff]
    exact ⟨fun hs => (Except.ok.inj hs).symm, fun hs => hs ▸ rfl⟩
  | cons item rest ih =>
    simp only [mapM_cons, Effect.bind_eq_ok, ih, forall₂_cons_left_iff]
    constructor
    · rintro ⟨value, hf, values, hr, hs⟩
      cases hs
      exact ⟨value, values, hf, hr, rfl⟩
    · rintro ⟨value, values, hf, hr, rfl⟩
      exact ⟨value, hf, values, hr, rfl⟩

theorem mapM_error {f : ρ → Except ε β} (hl : item ∈ items)
    (hfa : ∃ cause, f item = .error cause) : ∃ cause, items.mapM f = .error cause := by
  cases hm : items.mapM f with
  | error cause => exact ⟨cause, rfl⟩
  | ok results =>
    obtain ⟨cause, hf⟩ := hfa
    obtain ⟨index, hb, rfl⟩ := getElem_of_mem hl
    have he := mapM_eq_ok.mp hm
    have hp := he.get hb (he.length_eq ▸ hb)
    rw [get_eq_getElem, hf] at hp
    cases hp

theorem exists_getElem?_ne {first second : List α} (hs : first.length = second.length)
    (hd : first ≠ second) :
    ∃ (index : Nat) (left right : α), first[index]? = some left ∧
      second[index]? = some right ∧ left ≠ right := by
  by_contra hn
  push Not at hn
  apply hd
  apply ext_getElem hs
  intro index hb hb'
  exact hn index _ _ (getElem?_eq_getElem hb) (getElem?_eq_getElem hb')

theorem take_drop_flatten {length index : Nat} {chunks : List (List α)} {chunk : List α}
    (he : ∀ chunk ∈ chunks, chunk.length = length) (ha : chunks[index]? = some chunk) :
    (chunks.flatten.drop (index * length)).take length = chunk := by
  induction chunks generalizing index with
  | nil => cases ha
  | cons first rest ih =>
    have hs := he first mem_cons_self
    rw [flatten_cons]
    cases index with
    | zero =>
      cases ha
      simp [← hs]
    | succ index =>
      have hsk : (index + 1) * length = first.length + index * length := by
        rw [hs]
        ring
      rw [hsk, drop_length_add_append]
      exact ih (fun chunk hl => he chunk (mem_cons_of_mem _ hl)) ha

theorem length_flatten_even {length : Nat} {chunks : List (List α)}
    (he : ∀ chunk ∈ chunks, chunk.length = length) :
    chunks.flatten.length = chunks.length * length := by
  rw [length_flatten, sum_eq_card_nsmul _ length (by simpa using he)]
  simp

end Eredu
