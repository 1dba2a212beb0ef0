import Mathlib.Tactic

/-!
# Computations that keep their writes when they fail

An `Effect σ ε α` reads and writes a state and either returns a value or stops
with a fault. A fault does not roll the state back: the writes made before it
stay, as they do when a method taking `&mut self` returns early. Faults are the
errors a caller can handle and the panics it cannot.

`Yields` is the weakest-precondition reading of a run. Its rules rewrite a
statement about a composed computation into statements about its parts, and
`Guarantee` packages the common case of a relation between the states before
and after.
-/

namespace Eredu

open List

inductive Fault (ε : Type) where
  | error (cause : ε)
  | panic (message : String)
  deriving Repr, DecidableEq

/-- A stateful computation whose writes survive a fault. -/
abbrev Effect (σ ε : Type) : Type → Type := ExceptT (Fault ε) (StateM σ)

namespace Effect

variable {σ τ ε α β : Type}

def outcome (m : Effect σ ε α) (state : σ) : Except (Fault ε) α × σ := m.run.run state

variable (cause : ε)

def fail : Effect σ ε α := throw (.error cause)

variable (message : String)

def abort : Effect σ ε α := throw (.panic message)

variable (f : σ → α × σ)

def apply : Effect σ ε α := ExceptT.mk fun state => (.ok (f state).1, (f state).2)

def ofResult : Except ε α → Effect σ ε α
  | .ok value => pure value
  | .error cause => fail cause

/-- An operation of the outside on a part of the state: a result and the part it leaves. -/
abbrev Call (τ ε α : Type) : Type := τ → Except ε α × τ

/-- Calls an operation on a part of the state. The part it leaves is written back together with its
result, and an error it reports is wrapped in the caller's error type. -/
def call {ε' : Type} (wrap : ε' → ε) (read : σ → τ) (write : Except ε' α → τ → σ → σ)
    (operation : Call τ ε' α) : Effect σ ε α := ExceptT.mk fun state =>
  ((operation (read state)).1.mapError (.error ∘ wrap),
    write (operation (read state)).1 (operation (read state)).2 state)

def on {ε' : Type} (wrap : ε' → ε) (read : σ → τ) (write : τ → σ → σ) (m : Effect τ ε' α) :
    Effect σ ε α := ExceptT.mk fun state =>
  match m.outcome (read state) with
  | (.ok value, part) => (.ok value, write part state)
  | (.error (.error cause), part) => (.error (.error (wrap cause)), write part state)
  | (.error (.panic message), part) => (.error (.panic message), write part state)

/-- Runs a computation on a part of the state and returns its result as a value. -/
def attemptOn {ε' : Type} (read : σ → τ) (write : τ → σ → σ) (m : Effect τ ε' α) :
    Effect σ ε (Except ε' α) := ExceptT.mk fun state =>
  match m.outcome (read state) with
  | (.ok value, part) => (.ok (.ok value), write part state)
  | (.error (.error cause), part) => (.ok (.error cause), write part state)
  | (.error (.panic message), part) => (.error (.panic message), write part state)

/-- Turns an error into a value, as matching on a returned `Result` does. Panics pass through. -/
def attempt (m : Effect σ ε α) : Effect σ ε (Except ε α) := attemptOn id (fun part _ => part) m

variable {m : Effect σ ε α}

/-- Computations with the same runs are the same. -/
theorem ext_outcome {n : Effect σ ε α} (hs : ∀ state, m.outcome state = n.outcome state) : m = n :=
  funext hs

@[simp] theorem outcome_pure (value : α) (state : σ) :
    (pure value : Effect σ ε α).outcome state = (.ok value, state) := rfl

variable (m)

theorem outcome_bind (next : α → Effect σ ε β) (state : σ) : (m >>= next).outcome state =
      match m.outcome state with
      | (.ok value, state) => (next value).outcome state
      | (.error fault, state) => (.error fault, state) := by
  simp only [outcome, ExceptT.run_bind, StateT.run_bind]
  rcases m.run.run state with ⟨_ | _, _⟩ <;> rfl

@[simp] theorem outcome_fail (state : σ) :
    (fail cause : Effect σ ε α).outcome state = (.error (.error cause), state) := rfl

@[simp] theorem outcome_get (state : σ) :
    (get : Effect σ ε σ).outcome state = (.ok state, state) := rfl

@[simp] theorem outcome_set (state replaced : σ) :
    (set state : Effect σ ε PUnit).outcome replaced = (.ok ⟨⟩, state) := rfl

@[simp] theorem outcome_modify (f : σ → σ) (state : σ) :
    (modify f : Effect σ ε PUnit).outcome state = (.ok ⟨⟩, f state) := rfl

@[simp] theorem outcome_apply (state : σ) :
    (apply f : Effect σ ε α).outcome state = (.ok (f state).1, (f state).2) := rfl

@[simp] theorem outcome_ofResult_ok (value : α) (state : σ) :
    (ofResult (.ok value) : Effect σ ε α).outcome state = (.ok value, state) := rfl

variable {ε' : Type} (wrap : ε' → ε) (read : σ → τ)

theorem outcome_call (write : Except ε' α → τ → σ → σ)
    (operation : Call τ ε' α) (state : σ) : (call wrap read write operation).outcome state =
      ((operation (read state)).1.mapError (.error ∘ wrap),
        write (operation (read state)).1 (operation (read state)).2 state) := rfl

theorem outcome_on (write : τ → σ → σ) (m : Effect τ ε' α) (state : σ) :
    (on wrap read write m).outcome state =
      match m.outcome (read state) with
      | (.ok value, part) => (.ok value, write part state)
      | (.error (.error cause), part) => (.error (.error (wrap cause)), write part state)
      | (.error (.panic message), part) => (.error (.panic message), write part state) := rfl

def final (state : σ) : σ := (m.outcome state).2

/-- Running from `state` ends in `returned` with a value or in `stopped` with a fault. -/
def Yields (state : σ) (returned : α → σ → Prop) (stopped : Fault ε → σ → Prop) : Prop :=
  match m.outcome state with
  | (.ok value, state) => returned value state
  | (.error fault, state) => stopped fault state

variable {m}

def Reported (fault : Fault ε) (_ : σ) : Prop := ∃ cause, fault = .error cause

variable {next : β → Effect σ ε α} {value : α}

section Rules

variable {state : σ} {returned returned' : α → σ → Prop} {stopped stopped' : Fault ε → σ → Prop}

theorem Yields.mono (hh : m.Yields state returned stopped)
    (ho : ∀ value state, returned value state → returned' value state)
    (hon : ∀ fault state, stopped fault state → stopped' fault state) :
    m.Yields state returned' stopped' := by
  unfold Yields at *
  split at hh
  · exact ho _ _ hh
  · exact hon _ _ hh

theorem Yields.imp (hh : m.Yields state returned stopped)
    (ho : ∀ value state, returned value state → returned' value state) :
    m.Yields state returned' stopped :=
  hh.mono ho fun _ _ => id

theorem Yields.and (hf : m.Yields state returned stopped) (hs : m.Yields state returned' stopped') :
    m.Yields state (fun value state => returned value state ∧ returned' value state)
      (fun fault state => stopped fault state ∧ stopped' fault state) := by
  unfold Yields at *
  generalize m.outcome state = result at hf hs ⊢
  rcases result with ⟨_ | _, _⟩ <;> exact ⟨hf, hs⟩

@[simp] theorem yields_pure (value : α) :
    (pure value : Effect σ ε α).Yields state returned stopped ↔ returned value state := .rfl

theorem yields_bind {m : Effect σ ε β} : (m >>= next).Yields state returned stopped ↔
      m.Yields state (fun value state => (next value).Yields state returned stopped) stopped := by
  unfold Yields
  rw [outcome_bind]
  rcases m.outcome state with ⟨_ | _, _⟩ <;> rfl

theorem Yields.of_ok (hh : m.Yields state returned stopped)
    (run : (m.outcome state).1 = .ok value) : returned value (m.outcome state).2 := by
  unfold Yields at hh
  split at hh
  · next hr' =>
    rw [hr'] at run ⊢
    cases run
    exact hh
  · next hr' =>
    rw [hr'] at run
    cases run

theorem Yields.of_error (hh : m.Yields state returned stopped) {fault : Fault ε}
    (run : (m.outcome state).1 = .error fault) : stopped fault (m.outcome state).2 := by
  unfold Yields at hh
  split at hh
  · next hr' =>
    rw [hr'] at run
    cases run
  · next hr' =>
    rw [hr'] at run ⊢
    cases run
    exact hh

theorem Yields.bind {m : Effect σ ε β}
    (hf : m.Yields state (fun value state => (next value).Yields state returned stopped)
      stopped) : (m >>= next).Yields state returned stopped :=
  yields_bind.mpr hf

theorem Yields.andThen {m : Effect σ ε β} {middle : β → σ → Prop}
    (hf : m.Yields state middle stopped)
    (hr : ∀ value state, middle value state → (next value).Yields state returned stopped) :
    (m >>= next).Yields state returned stopped :=
  Yields.bind (hf.imp hr)

@[simp] theorem yields_get {returned : σ → σ → Prop} :
    (get : Effect σ ε σ).Yields state returned stopped ↔ returned state state := .rfl

@[simp] theorem yields_set {returned : PUnit → σ → Prop} (replacement : σ) :
    (set replacement : Effect σ ε PUnit).Yields state returned stopped ↔
      returned ⟨⟩ replacement := .rfl

@[simp] theorem yields_modify {returned : PUnit → σ → Prop} (f : σ → σ) :
    (modify f : Effect σ ε PUnit).Yields state returned stopped ↔ returned ⟨⟩ (f state) := .rfl

@[simp] theorem yields_apply : (apply f : Effect σ ε α).Yields state returned stopped ↔
      returned (f state).1 (f state).2 := .rfl

theorem yields_attemptOn {ε' : Type} {read : σ → τ} {write : τ → σ → σ} {m : Effect τ ε' α}
    {returned : Except ε' α → σ → Prop} :
    (attemptOn read write m : Effect σ ε (Except ε' α)).Yields state returned stopped ↔
      m.Yields (read state) (fun value part => returned (.ok value) (write part state))
        fun fault part =>
          match fault with
          | .error cause => returned (.error cause) (write part state)
          | .panic message => stopped (.panic message) (write part state) := by
  unfold attemptOn Yields outcome
  simp only [ExceptT.run_mk, StateT.run]
  rcases m.run (read state) with ⟨(_ | _) | _, _⟩ <;> rfl

theorem yields_attempt {returned : Except ε α → σ → Prop} :
    (attempt m).Yields state returned stopped ↔
      m.Yields state (fun value => returned (.ok value)) fun fault state =>
        match fault with
        | .error cause => returned (.error cause) state
        | .panic message => stopped (.panic message) state := yields_attemptOn

end Rules

variable {result : Except ε α} {stopped : Fault ε → σ → Prop} {state : σ} {returned : α → σ → Prop}

theorem yields_ofResult :
    (ofResult result).Yields state returned stopped ↔
      match result with
      | .ok value => returned value state
      | .error cause => stopped (.error cause) state := by
  cases result <;> rfl

variable {items : List α}

theorem mapM_eq_pure {m : Type → Type} [Monad m] [LawfulMonad m] {f : α → m β} {g : α → β}
    (he : ∀ item ∈ items, f item = pure (g item)) : items.mapM f = pure (items.map g) := by
  induction items with
  | nil => rfl
  | cons item items ih =>
    obtain ⟨hf, ho⟩ := forall_mem_cons.mp he
    rw [mapM_cons, hf, pure_bind, ih ho, pure_bind]
    rfl

def Concludes (result : Except ε α) (good : α → Prop) (bad : ε → Prop) : Prop :=
  match result with
  | .ok value => good value
  | .error cause => bad cause

variable {bad : ε → Prop} {good : α → Prop}

theorem Concludes.bind {next : α → Except ε β} {goal : β → Prop} (hf : Concludes result good bad)
    (hc : ∀ value, good value → Concludes (next value) goal bad) :
    Concludes (result >>= next) goal bad := by
  cases result with
  | error cause => exact hf
  | ok value => exact hc value hf

theorem ok_bind (value : α) (next : α → Except ε β) : (Except.ok value >>= next) = next value := rfl

theorem bind_eq_ok {next : α → Except ε β} {final : β} :
    result >>= next = .ok final ↔ ∃ value, result = .ok value ∧ next value = .ok final := by
  cases result with
  | error cause => simp [bind, Except.bind]
  | ok value => simp [ok_bind]

section

variable (hc : Concludes result good bad)
include hc

theorem Concludes.of_ok (ok : result = .ok value) : good value := by
  subst ok
  exact hc

theorem Concludes.mono {weaker : α → Prop}
    (hi : ∀ value, good value → weaker value) : Concludes result weaker bad := by
  cases result with
  | error cause => exact hc
  | ok value => exact hi value hc

end

theorem concludes_self (result : Except ε α) :
    Concludes result (fun value => result = .ok value) fun _ => True := by
  cases result with
  | error cause => trivial
  | ok value => exact rfl

theorem concludes_mapM {f : α → Except ε β} {good : α → β → Prop}
    (he : ∀ item ∈ items, Concludes (f item) (good item) bad) :
    Concludes (items.mapM f) (List.Forall₂ good items) bad := by
  induction items with
  | nil => exact List.Forall₂.nil
  | cons item items ih =>
    rw [mapM_cons]
    apply (he item mem_cons_self).bind
    intro value hh
    have ho := ih fun other hl => he other (mem_cons_of_mem _ hl)
    exact ho.bind fun values hr => List.Forall₂.cons hh hr

variable {start : β} {f : β → α → Except ε β} {invariant : β → Prop}

theorem concludes_foldlM
    (he : ∀ total, invariant total → ∀ item ∈ items, Concludes (f total item) invariant bad)
    (hh : invariant start) : Concludes (items.foldlM f start) invariant bad := by
  induction items generalizing start with
  | nil => exact hh
  | cons item items ih =>
    apply (he start hh item mem_cons_self).bind
    intro next hc
    exact ih (fun total hh other hl => he total hh other (mem_cons_of_mem _ hl)) hc

theorem concludes_foldlM_flatMap {γ : Type} {contents : β → List γ} {piece : α → List γ}
    (he : ∀ total, invariant total → ∀ item ∈ items, Concludes (f total item)
      (fun next => invariant next ∧ contents next = contents total ++ piece item) bad)
    (hh : invariant start) : Concludes (items.foldlM f start)
      (fun final => invariant final ∧ contents final = contents start ++ items.flatMap piece) bad := by
  induction items generalizing start with
  | nil => exact ⟨hh, (append_nil _).symm⟩
  | cons item items ih =>
    apply (he start hh item mem_cons_self).bind
    rintro next ⟨hc, ha⟩
    apply (ih (fun total hh other hl => he total hh other (mem_cons_of_mem _ hl)) hc).mono
    rintro final ⟨hla, hw⟩
    exact ⟨hla, by rw [hw, ha, append_assoc, flatMap_cons]⟩

theorem foldlM_append_eq_ok {γ : Type} {f : List γ → α → Except ε (List γ)} {piece : α → List γ}
    (he : ∀ total, ∀ item ∈ items, f total item = .ok (total ++ piece item)) (start : List γ) :
    items.foldlM f start = .ok (start ++ items.flatMap piece) := by
  induction items generalizing start with
  | nil => exact congrArg Except.ok (append_nil _).symm
  | cons item items ih =>
    rw [foldlM_cons, he start item mem_cons_self, flatMap_cons, ← append_assoc]
    exact ih (fun total other hl => he total other (mem_cons_of_mem _ hl)) _

theorem exists_of_forall₂ {related : α → β → Prop} {results : List β}
    (all : List.Forall₂ related items results) {result : β} (hl : result ∈ results) :
    ∃ item ∈ items, related item result := by
  induction all with
  | nil => cases hl
  | cons hf _ ih =>
    rcases mem_cons.mp hl with rfl | hla
    · exact ⟨_, mem_cons_self, hf⟩
    · obtain ⟨item, hm, hh⟩ := ih hla
      exact ⟨item, mem_cons_of_mem _ hm, hh⟩

theorem yields_of_concludes (hc : Concludes result good bad)
    (hr : ∀ value, good value → returned value state)
    (hf : ∀ cause, bad cause → stopped (.error cause) state) :
    (ofResult result).Yields state returned stopped := by
  cases result with
  | ok value => exact hr value hc
  | error cause => exact hf cause hc

def Returns (m : Effect σ ε α) (good : α → Prop) : Prop :=
  ∀ state, m.Yields state (fun value _ => good value) fun _ _ => True

section Returns

variable {good : α → Prop}

theorem Returns.of_ok (hr : m.Returns good) {after : σ}
    (run : m.outcome state = (.ok value, after)) : good value :=
  (hr state).of_ok (congrArg Prod.fst run)

theorem returns_pure (hh : good value) : (pure value : Effect σ ε α).Returns good := fun _ => hh

theorem returns_fail : (fail cause : Effect σ ε α).Returns good := fun _ => trivial

theorem returns_true (m : Effect σ ε α) : m.Returns fun _ => True := by
  intro state
  unfold Yields
  split <;> trivial

theorem Returns.mono {weaker : α → Prop} (hr : m.Returns good)
    (hi : ∀ value, good value → weaker value) : m.Returns weaker :=
  fun state => (hr state).mono (fun value _ => hi value) fun _ _ => id

theorem Returns.bind {m : Effect σ ε β} {between : β → Prop} (hf : m.Returns between)
    (hc : ∀ value, between value → (next value).Returns good) : (m >>= next).Returns good :=
  fun state => Yields.bind ((hf state).mono (fun value state hh => hc value hh state) fun _ _ => id)

theorem returns_after {m : Effect σ ε β} (hc : ∀ value, (next value).Returns good) :
    (m >>= next).Returns good :=
  (returns_true m).bind fun value _ => hc value

theorem returns_ofResult (hc : Concludes result good bad) :
    (ofResult result : Effect σ ε α).Returns good :=
  fun _ => yields_of_concludes hc (fun _ => id) fun _ _ => trivial

theorem returns_foldlM {f : β → α → Effect σ ε β} (invariant : List α → β → Prop)
    (he : ∀ done item rest total, items = done ++ item :: rest → invariant done total →
      (f total item).Returns (invariant (done ++ [item]))) (hh : invariant [] start) :
    (items.foldlM f start).Returns (invariant items) := by
  have run : ∀ (rest done : List α) (total : β), items = done ++ rest → invariant done total →
      (rest.foldlM f total).Returns (invariant items) := by
    intro rest
    induction rest with
    | nil =>
      intro done total hw hh
      rw [append_nil] at hw
      rw [hw]
      exact returns_pure hh
    | cons item rest ih =>
      intro done total hw hh
      apply (he done item rest total hw hh).bind
      intro next hc
      apply ih (done ++ [item]) next _ hc
      rw [hw, append_assoc]
      rfl
  exact run items [] start rfl hh

theorem returns_foldlM_zipIdx {f : β → α × Nat → Effect σ ε β} (invariant : Nat → β → Prop)
    (he : ∀ item count total, items[count]? = some item → invariant count total →
      (f total (item, count)).Returns (invariant (count + 1))) (hh : invariant 0 start) :
    (items.zipIdx.foldlM f start).Returns (invariant items.length) := by
  have hz : items.zipIdx.length = items.length := length_zipIdx
  rw [← hz]
  refine returns_foldlM (fun done => invariant done.length) (fun done indexed rest total hw hh => ?_) hh
  have ha : items.zipIdx[done.length]? = some indexed := by
    rw [hw, getElem?_append_right le_rfl, Nat.sub_self]
    rfl
  rw [getElem?_zipIdx] at ha
  obtain ⟨item, hf, rfl⟩ := Option.map_eq_some_iff.mp ha
  rw [length_append, zero_add]
  exact he item _ total hf hh

end Returns

/-- Every run moves the state along `relation`, also when it stops with a fault. -/
def Guarantee (relation : σ → σ → Prop) (m : Effect σ ε α) : Prop :=
  ∀ state, m.Yields state (fun _ => relation state) (fun _ => relation state)

theorem Yields.final {leaves : σ → Prop} (hh : m.Yields state (fun _ => leaves) (fun _ => leaves)) :
    leaves (m.final state) := by
  unfold Yields at hh
  unfold Effect.final
  generalize m.outcome state = result at hh ⊢
  rcases result with ⟨_ | _, _⟩ <;> exact hh

variable {relation : σ → σ → Prop}

theorem Guarantee.final (hg : Guarantee relation m) (state : σ) : relation state (m.final state) :=
  (hg state).final

variable {read : σ → τ} {write : τ → σ → σ}

theorem Yields.ofResult (hr : ∀ value, result = .ok value → returned value state)
    (hf : ∀ cause, result = .error cause → stopped (.error cause) state) :
    (Effect.ofResult result).Yields state returned stopped := by
  cases result with
  | ok value => exact hr value rfl
  | error cause => exact hf cause rfl

theorem Yields.call {wrap : ε' → ε} {write : Except ε' α → τ → σ → σ} {operation : Call τ ε' α}
    (ho : ∀ value, (operation (read state)).1 = .ok value →
      returned value (write (.ok value) (operation (read state)).2 state))
    (hon : ∀ cause, (operation (read state)).1 = .error cause →
      stopped (.error (wrap cause)) (write (.error cause) (operation (read state)).2 state)) :
    (Effect.call wrap read write operation).Yields state returned stopped := by
  unfold Yields
  rw [outcome_call]
  cases hr : (operation (read state)).1 with
  | ok value => exact ho value hr
  | error cause => exact hon cause hr

theorem yields_mapM {items : List β} {body : β → Effect σ ε α} {holds : σ → Prop}
    (he : ∀ item state, holds state → (body item).Yields state (fun _ => holds) stopped)
    (hs : holds state) : (items.mapM body).Yields state (fun _ => holds) stopped := by
  induction items generalizing state with
  | nil => exact hs
  | cons item rest ih =>
    rw [mapM_cons, yields_bind]
    refine (he item state hs).mono (fun value after hk => ?_) fun _ _ => id
    rw [yields_bind]
    exact (ih hk).mono (fun _ _ => id) fun _ _ => id

theorem yields_true (m : Effect σ ε α) (state : σ) :
    m.Yields state (fun _ _ => True) (fun _ _ => True) := by
  unfold Yields
  split <;> trivial

theorem guarantee_modify {f : σ → σ} (hm : ∀ state, relation state (f state)) :
    Guarantee relation (modify f : Effect σ ε PUnit) := hm

theorem Guarantee.attempt (hg : Guarantee relation m) : Guarantee relation m.attempt := by
  intro state
  rw [yields_attempt]
  refine (hg state).mono (fun _ _ => id) fun fault _ ha => ?_
  cases fault <;> exact ha

theorem guarantee_attemptOn {m : Effect τ ε' α}
    (hm : ∀ part state, relation state (write part state)) :
    Guarantee relation (attemptOn read write m : Effect σ ε (Except ε' α)) := by
  intro state
  rw [yields_attemptOn]
  refine (yields_true m _).mono (fun _ _ _ => hm _ _) fun fault _ _ => ?_
  cases fault <;> exact hm _ _

section Preorder

variable {relation : σ → σ → Prop} [IsPreorder σ relation]

theorem guarantee_pure (value : α) : Guarantee relation (pure value : Effect σ ε α) :=
  fun state => refl_of relation state

theorem guarantee_get : Guarantee relation (get : Effect σ ε σ) := refl_of relation

theorem guarantee_fail : Guarantee relation (fail cause : Effect σ ε α) :=
  fun state => refl_of relation state

theorem Guarantee.from (hg : Guarantee relation m) {start : σ} (hb : relation start state) :
    m.Yields state (fun _ => relation start) (fun _ => relation start) :=
  (hg state).mono (fun _ _ ha => trans_of relation hb ha) fun _ _ ha => trans_of relation hb ha

theorem Guarantee.bind {m : Effect σ ε β} (hf : Guarantee relation m)
    (hr : ∀ value, Guarantee relation (next value)) : Guarantee relation (m >>= next) := by
  intro state
  rw [yields_bind]
  exact (hf state).mono (fun value _ ha => (hr value).from ha) fun _ _ => id

theorem guarantee_forM {items : List β} {body : β → Effect σ ε PUnit}
    (he : ∀ item, Guarantee relation (body item)) : Guarantee relation (items.forM body) := by
  induction items with
  | nil => exact guarantee_pure _
  | cons item rest ih => exact (he item).bind fun _ => ih

end Preorder

end Effect

end Eredu
