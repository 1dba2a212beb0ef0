import Eredu.Foundation.Effect

/-!
# Reading and writing binary encodings

A decoder is an effect on a cursor in a byte string. `Reads m bytes value` says
that the decoder `m`, in front of `bytes` and anything after them, consumes exactly
`bytes` and returns `value`. An encoder is an effect on a seekable sink, and
`Emits m bytes fact` says that a run that succeeds at the end of the sink has
appended `bytes`. Both are closed under the ways programs are composed, so that a
round trip is proved one field at a time.
-/

namespace Eredu.Codec

open List Effect

def leBytes : Nat → Nat → List UInt8
  | 0, _ => []
  | width + 1, value => UInt8.ofNat value :: leBytes width (value / 256)

def ofLeBytes : List UInt8 → Nat
  | [] => 0
  | byte :: bytes => byte.toNat + 256 * ofLeBytes bytes

@[simp] theorem length_leBytes (width value : Nat) : (leBytes width value).length = width := by
  induction width generalizing value with
  | zero => rfl
  | succ width ih => rw [leBytes, length_cons, ih]

theorem ofLeBytes_leBytes {width value : Nat} (hf : value < 256 ^ width) :
    ofLeBytes (leBytes width value) = value := by
  induction width generalizing value with
  | zero =>
    rw [pow_zero, Nat.lt_one_iff] at hf
    rw [hf]
    rfl
  | succ width ih =>
    have hr : value / 256 < 256 ^ width := by
      rw [Nat.div_lt_iff_lt_mul (by norm_num)]
      rwa [pow_succ] at hf
    rw [leBytes, ofLeBytes, ih hr, UInt8.toNat_ofNat']
    exact Nat.mod_add_div value 256

theorem flatMap_leBytes_inj {width : Nat} {words others : List Nat} (hp : 0 < width)
    (hw : ∀ word ∈ words, word < 256 ^ width) (ho : ∀ word ∈ others, word < 256 ^ width)
    (he : words.flatMap (leBytes width) = others.flatMap (leBytes width)) : words = others := by
  induction words generalizing others with
  | nil =>
    cases others with
    | nil => rfl
    | cons other others =>
      have hl := congrArg length he
      simp only [flatMap_cons, length_append, length_leBytes] at hl
      exact absurd hl (ne_of_lt (Nat.add_pos_left hp _))
  | cons word words ih =>
    cases others with
    | nil =>
      have hl := congrArg length he
      simp only [flatMap_cons, length_append, length_leBytes] at hl
      exact absurd hl (ne_of_gt (Nat.add_pos_left hp _))
    | cons other others =>
      obtain ⟨hf, hw⟩ := forall_mem_cons.mp hw
      obtain ⟨hg, ho⟩ := forall_mem_cons.mp ho
      obtain ⟨hh, ht⟩ := append_inj he (by simp)
      rw [← ofLeBytes_leBytes hf, hh, ofLeBytes_leBytes hg, ih hw ho ht]

/-- A position in a byte string and what lies ahead of it. -/
structure Cursor where
  rest : List UInt8
  position : Nat
  deriving Repr, DecidableEq

def readExact {ε : Type} (short : Nat → ε) (size : Nat) : Effect Cursor ε (List UInt8) := do
  let cursor ← get
  if size ≤ cursor.rest.length then
    set (⟨cursor.rest.drop size, cursor.position + size⟩ : Cursor)
    return cursor.rest.take size
  else
    fail (short cursor.position)

def times {σ ε α : Type} (m : Effect σ ε α) : Nat → Effect σ ε (List α)
  | 0 => pure []
  | count + 1 => do
    let value ← m
    let values ← times m count
    return value :: values

variable {bytes : List UInt8} {first second : List UInt8} {rest : List UInt8} {cursor : Cursor}

section Reads

variable {ε α β : Type}

/-- The decoder consumes exactly the encoding and returns the value. -/
def Reads (m : Effect Cursor ε α) (encoding : List UInt8) (value : α) : Prop :=
  ∀ rest position, m.outcome ⟨encoding ++ rest, position⟩ =
    (.ok value, ⟨rest, position + encoding.length⟩)

theorem reads_pure (value : α) : Reads (pure value : Effect Cursor ε α) [] value :=
  fun _ _ => rfl

theorem reads_readExact (short : Nat → ε) {size : Nat} (hl : bytes.length = size) :
    Reads (readExact short size) bytes bytes := by
  intro rest position
  subst hl
  have he : bytes.length ≤ (bytes ++ rest).length := by
    rw [length_append]
    exact Nat.le_add_right _ _
  simp only [readExact, outcome_bind, outcome_get, if_pos he, outcome_set,
    outcome_pure, take_left, drop_left]

variable {m : Effect Cursor ε α} {next : α → Effect Cursor ε β} {value : α} {result : β}

theorem Reads.bind (hr : Reads m first value)
    (hc : Reads (next value) second result) : Reads (m >>= next) (first ++ second) result := by
  intro rest position
  rw [append_assoc, outcome_bind, hr (second ++ rest) position]
  dsimp only
  rw [hc rest (position + first.length), length_append, add_assoc]

variable {encoding : List UInt8}

theorem Reads.then_pure (hr : Reads m encoding value) (hc : Reads (next value) [] result) :
    Reads (m >>= next) encoding result := by
  have hb := hr.bind hc
  rwa [append_nil] at hb

theorem Reads.skip (hr : Reads m [] value) (hc : Reads (next value) encoding result) :
    Reads (m >>= next) encoding result :=
  hr.bind hc

theorem Reads.map (hr : Reads m encoding value) (f : α → β) :
    Reads (f <$> m) encoding (f value) := by
  exact hr.then_pure (reads_pure (f value))

theorem reads_times {encode : α → List UInt8} {values : List α}
    (he : ∀ value ∈ values, Reads m (encode value) value) :
    Reads (times m values.length) (values.flatMap encode) values := by
  induction values with
  | nil => exact reads_pure []
  | cons value values ih =>
    apply (he value mem_cons_self).bind
    apply (ih fun other hl => he other (mem_cons_of_mem _ hl)).then_pure
    exact reads_pure (value :: values)

theorem Reads.outcome_bind {position : Nat} (hr : Reads m encoding value) :
    (m >>= next).outcome ⟨encoding ++ rest, position⟩ =
      (next value).outcome ⟨rest, position + encoding.length⟩ := by
  rw [Effect.outcome_bind, hr rest position]

theorem Reads.outcome_skip (hr : Reads m [] value) (cursor : Cursor) :
    (m >>= next).outcome cursor = (next value).outcome cursor :=
  hr.outcome_bind

end Reads

section Yields

variable {σ ε α : Type}

theorem yields_times {m : Effect σ ε α} {invariant : σ → Prop} {good : α → Prop}
    {stopped : Fault ε → σ → Prop} (he : ∀ state, invariant state →
      m.Yields state (fun value after => good value ∧ invariant after) stopped)
    (count : Nat) {state : σ} (hh : invariant state) : (times m count).Yields state
      (fun values after => (values.length = count ∧ ∀ value ∈ values, good value) ∧ invariant after)
      stopped := by
  induction count generalizing state with
  | zero => exact ⟨⟨rfl, by simp⟩, hh⟩
  | succ count ih =>
    rw [times, yields_bind]
    apply (he state hh).mono _ (fun _ _ => id)
    rintro value after ⟨hi, hke⟩
    rw [yields_bind]
    apply (ih hke).mono _ (fun _ _ => id)
    rintro values last ⟨⟨hs, ho⟩, hk⟩
    refine ⟨⟨by rw [length_cons, hs], ?_⟩, hk⟩
    exact forall_mem_cons.mpr ⟨hi, ho⟩

end Yields

/-- A seekable sink. Positions past the end read back as zeros once something is written behind. -/
structure Sink where
  contents : List UInt8
  position : Nat
  deriving Repr, DecidableEq

def lastPosition : Nat := 2 ^ 64 - 1

def written (contents bytes : List UInt8) (position : Nat) : List UInt8 :=
  contents.take position ++ List.replicate (position - contents.length) 0 ++ bytes ++
    contents.drop (position + bytes.length)

def writeAll {ε : Type} (failed : ε) (bytes : List UInt8) : Effect Sink ε Unit := do
  let sink ← get
  if sink.position + bytes.length ≤ lastPosition then
    -- Writing nothing does not extend the sink.
    set (⟨if bytes.isEmpty then sink.contents else written sink.contents bytes sink.position,
      sink.position + bytes.length⟩ : Sink)
  else
    fail failed

def seekForward {ε : Type} (failed : ε) (distance : Nat) : Effect Sink ε Unit := do
  let sink ← get
  if sink.position + distance ≤ lastPosition then
    set { sink with position := sink.position + distance }
  else
    fail failed

section Emits

variable {ε α β : Type} (failed : ε)

theorem seekForward_yields (distance : Nat) (sink : Sink) :
    (seekForward failed distance).Yields sink
      (fun _ after => after = ⟨sink.contents, sink.position + distance⟩) (fun _ _ => True) := by
  unfold seekForward
  rw [yields_bind, yields_get]
  split
  · exact rfl
  · trivial

/-- Writing behind the end fills the gap with zeros. -/
theorem writeAll_yields_gap {byte : UInt8} (contents : List UInt8) (gap : Nat) :
    (writeAll failed [byte]).Yields ⟨contents, contents.length + gap⟩
      (fun _ after => after = ⟨contents ++ (List.replicate gap 0 ++ [byte]),
        contents.length + gap + 1⟩ ∧ contents.length + gap + 1 ≤ lastPosition)
      (fun _ _ => True) := by
  unfold writeAll
  rw [yields_bind, yields_get]
  split
  · next hr =>
    have hb : contents.take (contents.length + gap) = contents :=
      take_of_length_le (Nat.le_add_right _ _)
    have hbe : contents.drop (contents.length + (gap + 1)) = [] :=
      drop_eq_nil_of_le (Nat.le_add_right _ _)
    exact ⟨by simp [written, add_assoc, hbe], hr⟩
  · trivial

def Sink.holding (contents : List UInt8) : Sink := ⟨contents, contents.length⟩

/-- A run that succeeds at the end of a sink has appended the bytes and established the fact. -/
def Emits (m : Effect Sink ε α) (bytes : List UInt8) (fact : α → Prop) : Prop :=
  ∀ contents : List UInt8, contents.length ≤ lastPosition →
    m.Yields (Sink.holding contents)
      (fun value after => (after = Sink.holding (contents ++ bytes) ∧
        (contents ++ bytes).length ≤ lastPosition) ∧ fact value) (fun _ _ => True)

variable {fact : α → Prop}

theorem emits_pure (value : α) (hh : fact value) :
    Emits (pure value : Effect Sink ε α) [] fact := by
  intro contents hr
  rw [yields_pure, append_nil]
  exact ⟨⟨rfl, hr⟩, hh⟩

theorem emits_fail (cause : ε) (bytes : List UInt8) (fact : α → Prop) :
    Emits (fail cause : Effect Sink ε α) bytes fact :=
  fun _ _ => trivial

variable {m : Effect Sink ε α}

theorem Emits.bind {next : α → Effect Sink ε β} {goal : β → Prop}
    (he : Emits m first fact) (hc : ∀ value, fact value → Emits (next value) second goal) :
    Emits (m >>= next) (first ++ second) goal := by
  intro contents hro
  rw [yields_bind]
  apply (he contents hro).mono _ (fun _ _ => id)
  rintro value after ⟨⟨rfl, hr⟩, hh⟩
  rw [← append_assoc]
  exact hc value hh (contents ++ first) hr

theorem Emits.then {next : α → Effect Sink ε β} {contents : List UInt8} {returned : β → Sink → Prop}
    (he : Emits m bytes fact) (hro : contents.length ≤ lastPosition)
    (hc : ∀ value, fact value → (contents ++ bytes).length ≤ lastPosition →
      (next value).Yields (Sink.holding (contents ++ bytes)) returned fun _ _ => True) :
    (m >>= next).Yields (Sink.holding contents) returned fun _ _ => True := by
  rw [yields_bind]
  apply (he contents hro).mono _ (fun _ _ => id)
  rintro value after ⟨⟨rfl, hr⟩, hh⟩
  exact hc value hh hr

theorem Emits.mono {weaker : α → Prop} (he : Emits m bytes fact)
    (hi : ∀ value, fact value → weaker value) : Emits m bytes weaker := by
  intro contents hr
  exact (he contents hr).mono (fun value after ⟨hs, hh⟩ => ⟨hs, hi value hh⟩) (fun _ _ => id)

theorem written_at_end (contents bytes : List UInt8) :
    written contents bytes contents.length = contents ++ bytes := by
  simp [written]

theorem emits_writeAll (bytes : List UInt8) :
    Emits (writeAll failed bytes) bytes fun _ => True := by
  intro contents _
  unfold writeAll
  rw [yields_bind, yields_get]
  split
  · next hr =>
    refine ⟨⟨?_, ?_⟩, trivial⟩
    · cases bytes with
      | nil => simp
      | cons byte bytes => simp [Sink.holding, written_at_end]
    · rw [length_append]
      exact hr
  · trivial

theorem emits_forM {items : List α} {f : α → Effect Sink ε PUnit} {encode : α → List UInt8}
    (he : ∀ item ∈ items, Emits (f item) (encode item) fun _ => fact item) :
    Emits (items.forM f) (items.flatMap encode) fun _ => ∀ item ∈ items, fact item := by
  induction items with
  | nil => exact emits_pure _ (by simp)
  | cons item items ih =>
    apply (he item mem_cons_self).bind
    intro _ hh
    have ho := ih fun other hl => he other (mem_cons_of_mem _ hl)
    exact ho.mono fun _ hr => forall_mem_cons.mpr ⟨hh, hr⟩

end Emits

end Eredu.Codec
