import Mathlib.Algebra.BigOperators.Ring.List
import Mathlib.Data.List.Nodup
import Mathlib.Data.List.Range
import Mathlib.Tactic.Ring

/-!
# Arrays in row-major order

An array of some shape is kept as the flat list of its elements, the last
coordinate moving fastest. `gather` takes elements along one axis, coordinate by
coordinate; in the flat list that is a series of intervals, which is what a reader
of such a list can fetch.
-/

namespace Eredu.RowMajor

open List Nat

variable {α : Type}

/-- Induction on two lists of one length. -/
@[elab_as_elim]
theorem paired {β : Type}
    {motive : ∀ (left : List α) (right : List β), left.length = right.length → Prop}
    (nil : motive [] [] rfl)
    (cons : ∀ first left second right hs, motive left right hs →
      motive (first :: left) (second :: right) (congrArg succ hs)) :
    ∀ left right hs, motive left right hs
  | [], [], _ => nil
  | _ :: left, _ :: right, hs =>
    cons _ left _ right (succ.inj hs) (paired nil cons left right _)

def coordinates : List Nat → List (List Nat)
  | [] => [[]]
  | size :: shape => (range size).flatMap fun first => (coordinates shape).map (first :: ·)

/-- The place of an element in the flat list. -/
def ravel : List Nat → List Nat → Nat
  | _ :: shape, first :: rest => first * shape.prod + ravel shape rest
  | _, _ => 0

variable {shape coords : List Nat}

theorem length_of_mem_coordinates (hl : coords ∈ coordinates shape) :
    coords.length = shape.length := by
  induction shape generalizing coords with
  | nil =>
    rw [coordinates, mem_singleton] at hl
    rw [hl]
  | cons size shape ih =>
    obtain ⟨first, _, hi⟩ := mem_flatMap.mp hl
    obtain ⟨rest, hm, rfl⟩ := mem_map.mp hi
    rw [length_cons, length_cons, ih hm]

theorem flatMap_range' (start count size : Nat) :
    (range count).flatMap (fun index => range' (start + index * size) size) =
      range' start (count * size) := by
  induction count with
  | zero => simp
  | succ count ih =>
    rw [range_succ, flatMap_append, ih, flatMap_singleton, range'_append_1, succ_mul]

theorem map_ravel_coordinates (shape : List Nat) (start : Nat) :
    (coordinates shape).map (fun coords => start + ravel shape coords) =
      range' start shape.prod := by
  induction shape generalizing start with
  | nil => rfl
  | cons size shape ih =>
    rw [coordinates, map_flatMap, prod_cons, ← flatMap_range']
    apply flatMap_congr
    intro first _
    rw [map_map, ← ih]
    apply map_congr_left
    intro rest _
    show start + (first * shape.prod + ravel shape rest) = _
    rw [add_assoc]

theorem map_ravel (shape : List Nat) : (coordinates shape).map (ravel shape) = range' 0 shape.prod := by
  simpa only [zero_add] using map_ravel_coordinates shape 0

theorem mem_coordinates : coords ∈ coordinates shape ↔ Forall₂ (· < ·) coords shape := by
  induction shape generalizing coords with
  | nil => simp [coordinates]
  | cons size shape ih =>
    cases coords with
    | nil => simp [coordinates]
    | cons first rest => simp [coordinates, ih]

theorem nodup_map_ravel (shape : List Nat) : ((coordinates shape).map (ravel shape)).Nodup := by
  rw [map_ravel]
  exact nodup_range'

theorem nodup_coordinates (shape : List Nat) : (coordinates shape).Nodup :=
  Nodup.of_map _ (nodup_map_ravel shape)

theorem ravel_injective {first second : List Nat} (hf : first ∈ coordinates shape)
    (hs : second ∈ coordinates shape) (hsa : ravel shape first = ravel shape second) :
    first = second :=
  inj_on_of_nodup_map (nodup_map_ravel shape) hf hs hsa

theorem ravel_lt (hi : coords ∈ coordinates shape) : ravel shape coords < shape.prod := by
  have hm : ravel shape coords ∈ range' 0 shape.prod := by
    rw [← map_ravel]
    exact mem_map_of_mem hi
  rw [mem_range'_1] at hm
  omega

theorem exists_ravel {place : Nat} (hb : place < shape.prod) :
    ∃ coords ∈ coordinates shape, ravel shape coords = place := by
  apply mem_map.mp
  rw [map_ravel, mem_range'_1, zero_add]
  exact ⟨zero_le _, hb⟩

/-- One pass over the axes, last first, that takes the coordinates of a place apart; what is left of
the place comes with them. -/
def unravelled : List Nat → Nat → List Nat × Nat
  | [], place => ([], place)
  | size :: shape, place =>
    let (rest, left) := unravelled shape place
    (left % size :: rest, left / size)

def unravel (shape : List Nat) (place : Nat) : List Nat := (unravelled shape place).1

theorem unravelled_snd (shape : List Nat) (place : Nat) :
    (unravelled shape place).2 = place / shape.prod := by
  induction shape with
  | nil => simp [unravelled]
  | cons size shape ih =>
    rw [prod_cons, mul_comm, ← Nat.div_div_eq_div_mul, ← ih]
    rfl

theorem unravel_cons (size : Nat) (shape : List Nat) (place : Nat) :
    unravel (size :: shape) place = place / shape.prod % size :: unravel shape place := by
  rw [← unravelled_snd]
  rfl

theorem unravel_add (place blocks : Nat) :
    unravel shape (blocks * shape.prod + place) = unravel shape place := by
  induction shape generalizing blocks with
  | nil => rfl
  | cons size shape ih =>
    have ho : blocks * (size * shape.prod) = blocks * size * shape.prod := by ring
    rw [unravel_cons, unravel_cons, prod_cons, ho, ih]
    congr 1
    by_cases he : shape.prod = 0
    · simp [he]
    · rw [add_comm, add_mul_div_right _ _ (pos_of_ne_zero he),
        add_mul_mod_self_right]

theorem unravel_ravel (hi : coords ∈ coordinates shape) :
    unravel shape (ravel shape coords) = coords := by
  induction shape generalizing coords with
  | nil =>
    rw [coordinates, mem_singleton] at hi
    rw [hi]
    rfl
  | cons size shape ih =>
    cases coords with
    | nil => cases mem_coordinates.mp hi
    | cons first rest =>
      rw [mem_coordinates, forall₂_cons] at hi
      obtain ⟨hs, ho⟩ := hi
      have hw := mem_coordinates.mpr ho
      have hb := ravel_lt hw
      show unravel (size :: shape) (first * shape.prod + ravel shape rest) = _
      rw [unravel_cons, unravel_add, ih hw, add_comm,
        add_mul_div_right _ _ (zero_lt_of_lt hb), div_eq_of_lt hb, zero_add,
        mod_eq_of_lt hs]

theorem map_unravel_range (shape : List Nat) :
    (range shape.prod).map (unravel shape) = coordinates shape := by
  rw [range_eq_range', ← map_ravel, map_map]
  conv_rhs => rw [← map_id (coordinates shape)]
  apply map_congr_left
  intro coords hi
  exact unravel_ravel hi

theorem coordinates_append (outer inner : List Nat) : coordinates (outer ++ inner) =
      (coordinates outer).flatMap fun first => (coordinates inner).map (first ++ ·) := by
  induction outer with
  | nil => simp [coordinates]
  | cons size outer ih =>
    simp only [cons_append, coordinates, ih, map_flatMap, flatMap_assoc, flatMap_map, map_map]
    rfl

theorem ravel_append {outer inner first rest : List Nat} (hl : first.length = outer.length) :
    ravel (outer ++ inner) (first ++ rest) = ravel outer first * inner.prod + ravel inner rest := by
  induction outer generalizing first with
  | nil =>
    rw [length_nil, length_eq_zero_iff] at hl
    subst hl
    simp [ravel]
  | cons size outer ih =>
    cases first with
    | nil => cases hl
    | cons index first =>
      have hs : first.length = outer.length := succ.inj hl
      simp only [cons_append, ravel, ih hs, prod_append]
      ring

/-- The elements with given indices along an axis, in the order of the indices: an array whose shape
has the number of indices there. -/
def gather (shape : List Nat) (axis : Nat) (indices : List Nat) (elements : List α) :
    List (Option α) :=
  (coordinates (shape.set axis indices.length)).map fun coords =>
    elements[ravel shape (coords.modify axis fun index => indices.getD index 0)]?

variable (outer size inner : Nat) (indices : List Nat)

def gathered : List Nat :=
  (range outer).flatMap fun repetition =>
    indices.flatMap fun index => range' ((repetition * size + index) * inner) inner

theorem flatMap_getD_range (f : Nat → List α) :
    (range indices.length).flatMap (fun index => f (indices.getD index 0)) = indices.flatMap f := by
  have all : (range indices.length).map (fun index => indices.getD index 0) = indices := by
    apply ext_getElem
    · simp
    · intro index _ hi
      simp [hi]
  conv_rhs => rw [← all]
  rw [flatMap_map]

theorem flatMap_range'_blocks (base start count size : Nat) :
    (range' start count).flatMap (fun index => range' ((base + index) * size) size) =
      range' ((base + start) * size) (count * size) := by
  rw [← flatMap_range', range'_eq_map_range, flatMap_map]
  apply flatMap_congr
  intro index _
  congr 1
  ring

theorem gathered_runs (runs : List (Nat × Nat)) :
    gathered outer size inner (runs.flatMap fun run => range' run.1 run.2) =
      (range outer).flatMap fun repetition => runs.flatMap fun run =>
        range' ((repetition * size + run.1) * inner) (run.2 * inner) := by
  apply flatMap_congr
  intro repetition _
  rw [flatMap_assoc]
  apply flatMap_congr
  intro run _
  exact flatMap_range'_blocks _ _ _ _

theorem gathered_blocks (outer size inner multiple : Nat) (blocks : List Nat) :
    gathered outer (size * multiple) inner
        (blocks.flatMap fun block => range' (block * multiple) multiple) =
      gathered outer size (multiple * inner) blocks := by
  apply flatMap_congr
  intro repetition _
  rw [flatMap_assoc]
  apply flatMap_congr
  intro block _
  rw [flatMap_range'_blocks]
  congr 1
  ring

theorem gathered_all :
    gathered outer size inner (range' 0 size) = range' 0 (outer * (size * inner)) := by
  rw [← flatMap_range']
  apply flatMap_congr
  intro repetition _
  rw [flatMap_range'_blocks]
  congr 1
  ring

theorem modify_append_cons (first rest : List Nat) (index : Nat) (f : Nat → Nat) :
    (first ++ index :: rest).modify first.length f = first ++ f index :: rest := by
  induction first with
  | nil => rfl
  | cons other first ih =>
    rw [cons_append, length_cons, modify_succ_cons, ih]
    rfl

theorem gather_eq (outer inner : List Nat) (size : Nat) (indices : List Nat) (elements : List α) :
    gather (outer ++ size :: inner) outer.length indices elements =
      (gathered outer.prod size inner.prod indices).map (elements[·]?) := by
  have hp : (coordinates (outer ++ indices.length :: inner)).map (fun coords =>
      ravel (outer ++ size :: inner) (coords.modify outer.length fun index => indices.getD index 0)) =
        gathered outer.prod size inner.prod indices := by
    unfold gathered
    rw [coordinates_append, map_flatMap, range_eq_range',
      ← map_ravel_coordinates outer 0, flatMap_map]
    apply flatMap_congr
    intro first hli
    have hl := length_of_mem_coordinates hli
    rw [coordinates, map_flatMap, map_flatMap, zero_add, ← flatMap_getD_range indices]
    apply flatMap_congr
    intro index _
    rw [← map_ravel_coordinates, map_map, map_map]
    apply map_congr_left
    intro rest _
    show ravel (outer ++ size :: inner) ((first ++ index :: rest).modify outer.length _) = _
    rw [← hl, modify_append_cons, ravel_append hl]
    show _ * (size * inner.prod) + (_ * inner.prod + ravel inner rest) = _
    ring
  unfold gather
  rw [set_append_right _ _ le_rfl, Nat.sub_self, set_cons_zero, ← hp, map_map]
  rfl

def slice (start count : Nat) (elements : List α) : List α := (elements.drop start).take count

variable {count start : Nat} {elements : List α}

section

variable (hi : start + count ≤ elements.length)
include hi

theorem length_slice : (slice start count elements).length = count := by
  rw [slice, length_take, length_drop]
  omega

theorem exists_slice : ∃ before after, elements = before ++ (slice start count elements ++ after) ∧
      before.length = start := by
  refine ⟨elements.take start, (elements.drop start).drop count, ?_, ?_⟩
  · rw [slice, take_append_drop, take_append_drop]
  · rw [length_take]
    omega

theorem map_some_slice :
    (slice start count elements).map some = (range' start count).map (elements[·]?) := by
  apply ext_getElem
  · rw [length_map, length_map, length_slice hi, length_range']
  · intro index hb _
    simp only [getElem_map, slice, getElem_take, getElem_drop, getElem_range', one_mul]
    rw [getElem?_eq_getElem]

end

theorem slice_all (elements : List α) : slice 0 elements.length elements = elements := by
  rw [slice, drop_zero, take_length]

theorem map_some_all (elements : List α) :
    (range' 0 elements.length).map (elements[·]?) = elements.map some := by
  rw [← map_some_slice (zero_add _).le, slice_all]

variable {size : Nat}

theorem slice_slice {first : Nat} (hi : first + size ≤ count) :
    slice first size (slice start count elements) = slice (start + first) size elements := by
  unfold slice
  rw [drop_take, take_take, drop_drop, min_eq_left (by omega)]

theorem slice_append {middle finish : Nat} (elements : List α) (hf : start ≤ middle)
    (hs : middle ≤ finish) : slice start (finish - start) elements =
      slice start (middle - start) elements ++ slice middle (finish - middle) elements := by
  have hw : finish - start = (middle - start) + (finish - middle) := by omega
  rw [hw, slice, take_add, drop_drop, Nat.add_sub_cancel' hf]
  rfl

theorem flatMap_slice {β : Type} {f : α → List β} (hl : ∀ item, (f item).length = size)
    (start count : Nat) (elements : List α) : (slice start count elements).flatMap f =
      slice (start * size) (count * size) (elements.flatMap f) := by
  have hp : ∀ item number, (f item).length ≤ (number + 1) * size := by
    intro item number
    rw [hl, succ_mul]
    exact le_add_left _ _
  have hd : ∀ (number : Nat) (items : List α),
      (items.drop number).flatMap f = (items.flatMap f).drop (number * size) := by
    intro number items
    induction number generalizing items with
    | zero => simp
    | succ number ih =>
      cases items with
      | nil => simp
      | cons item items =>
        rw [drop_succ_cons, ih, flatMap_cons, drop_append,
          drop_eq_nil_of_le (hp _ _), nil_append, hl, Nat.succ_mul, Nat.add_sub_cancel]
  have ht : ∀ (number : Nat) (items : List α),
      (items.take number).flatMap f = (items.flatMap f).take (number * size) := by
    intro number items
    induction number generalizing items with
    | zero => simp
    | succ number ih =>
      cases items with
      | nil => simp
      | cons item items =>
        rw [take_succ_cons, flatMap_cons, ih, flatMap_cons,
          take_append, take_of_length_le (hp _ _), hl, Nat.succ_mul, Nat.add_sub_cancel]
  rw [slice, ht, hd, slice]

def chunks (size : Nat) : Nat → List α → List (List α)
  | 0, _ => []
  | count + 1, elements => elements.take size :: chunks size count (elements.drop size)

theorem chunks_append {first : List α} (hl : first.length = count * size) (more : Nat)
    (rest : List α) :
    chunks size (count + more) (first ++ rest) = chunks size count first ++ chunks size more rest := by
  induction count generalizing first with
  | zero =>
    rw [zero_mul, length_eq_zero_iff] at hl
    subst hl
    rw [zero_add]
    rfl
  | succ count ih =>
    have he : size ≤ first.length := by
      rw [hl, succ_mul]
      exact le_add_left _ _
    have hs : (first.drop size).length = count * size := by
      rw [length_drop, hl, Nat.succ_mul, Nat.add_sub_cancel]
    rw [succ_add]
    show (first ++ rest).take size :: chunks size (count + more) ((first ++ rest).drop size) = _
    rw [take_append_of_le_length he, drop_append_of_le_length he, ih hs]
    rfl

theorem length_chunks (size count : Nat) (elements : List α) :
    (chunks size count elements).length = count := by
  induction count generalizing elements with
  | zero => rfl
  | succ count ih => exact congrArg succ (ih _)

theorem flatten_chunks (hl : elements.length = count * size) :
    (chunks size count elements).flatten = elements := by
  induction count generalizing elements with
  | zero =>
    rw [zero_mul, length_eq_zero_iff] at hl
    rw [hl]
    rfl
  | succ count ih =>
    rw [chunks, flatten_cons, ih, take_append_drop]
    rw [length_drop, hl, Nat.succ_mul, Nat.add_sub_cancel]

def unpacked (values size : Nat) (encoded : List α) : List (List α × Nat) :=
  (chunks size (encoded.length / size) encoded).flatMap fun block =>
    (range values).map fun place => (block, place)

variable {encoded : List α}

section Unpacked

variable {values size : Nat} (positive : 0 < size)

include positive

theorem unpacked_append {first : List α} (hl : first.length = count * size) (rest : List α) :
    unpacked values size (first ++ rest) = unpacked values size first ++ unpacked values size rest := by
  unfold unpacked
  rw [length_append, hl, Nat.mul_div_cancel _ positive, mul_comm count,
    mul_add_div positive, chunks_append hl, flatMap_append]

theorem unpacked_flatMap {ι : Type} {pieces : List ι} {piece : ι → List α}
    (hle : ∀ item ∈ pieces, size ∣ (piece item).length) :
    unpacked values size (pieces.flatMap piece) =
      pieces.flatMap fun item => unpacked values size (piece item) := by
  induction pieces with
  | nil => simp [unpacked, chunks]
  | cons item pieces ih =>
    obtain ⟨⟨count, hl⟩, ho⟩ := forall_mem_cons.mp hle
    rw [mul_comm] at hl
    rw [flatMap_cons, flatMap_cons, unpacked_append positive hl, ih ho]

theorem length_unpacked (hl : encoded.length = count * size) :
    (unpacked values size encoded).length = count * values := by
  unfold unpacked
  rw [hl, Nat.mul_div_cancel _ positive, length_flatMap]
  simp [length_chunks]

theorem unpacked_slice {total : Nat} (hl : encoded.length = total * size)
    (hi : start + count ≤ total) :
    unpacked values size (slice (start * size) (count * size) encoded) =
      slice (start * values) (count * values) (unpacked values size encoded) := by
  have hf : start * size + count * size ≤ encoded.length := by
    rw [hl, ← add_mul]
    exact mul_le_mul_right _ hi
  obtain ⟨before, after, hw, hb⟩ := exists_slice hf
  have hm := length_slice hf
  generalize slice (start * size) (count * size) encoded = middle at *
  subst hw
  rw [unpacked_append positive hb, unpacked_append positive hm]
  unfold slice
  rw [drop_left' (length_unpacked positive hb), take_left' (length_unpacked positive hm)]

end Unpacked

theorem unpacked_one (size : Nat) (encoded : List α) :
    (unpacked 1 size encoded).map Prod.fst = chunks size (encoded.length / size) encoded := by
  unfold unpacked
  rw [map_flatMap]
  exact flatMap_singleton' _

/-- The slices of encoded blocks that hold the elements of some runs along an axis. -/
def encodedRuns (outer count units size : Nat) (runs : List (Nat × Nat)) (encoded : List α) : List α :=
  (range outer).flatMap fun repetition => runs.flatMap fun run =>
    slice (repetition * (count * (units * size)) + run.1 * (units * size)) (run.2 * (units * size)) encoded

/-- What a reader of encoded blocks fetches is what taking elements along the axis gives. -/
theorem unpacked_encodedRuns {outer units values : Nat} {runs : List (Nat × Nat)}
    (positive : 0 < size) (hle : encoded.length = outer * (count * units) * size)
    (hi : ∀ run ∈ runs, run.1 + run.2 ≤ count) :
    (unpacked values size (encodedRuns outer count units size runs encoded)).map some =
      (gathered outer count (units * values) (runs.flatMap fun run => range' run.1 run.2)).map
        ((unpacked values size encoded)[·]?) := by
  have hf : ∀ repetition ∈ range outer, ∀ run ∈ runs,
      (repetition * count + run.1) * units + run.2 * units ≤ outer * (count * units) := by
    intro repetition hl run hm
    calc (repetition * count + run.1) * units + run.2 * units
        = (repetition * count + (run.1 + run.2)) * units := by ring
      _ ≤ (repetition * count + count) * units :=
          Nat.mul_le_mul_right _ (Nat.add_le_add_left (hi run hm) _)
      _ = (repetition + 1) * (count * units) := by ring
      _ ≤ outer * (count * units) := mul_le_mul_right _ (mem_range.mp hl)
  have hpi : ∀ (repetition : Nat) (run : Nat × Nat),
      slice (repetition * (count * (units * size)) + run.1 * (units * size)) (run.2 * (units * size))
        encoded =
      slice ((repetition * count + run.1) * units * size) (run.2 * units * size) encoded := by
    intro repetition run
    congr 1 <;> ring
  have hp : ∀ repetition ∈ range outer, ∀ run ∈ runs,
      size ∣ (slice ((repetition * count + run.1) * units * size) (run.2 * units * size)
        encoded).length := by
    intro repetition hl run hm
    rw [length_slice]
    · exact dvd_mul_left _ _
    · rw [hle, ← add_mul]
      exact mul_le_mul_right _ (hf repetition hl run hm)
  rw [gathered_runs, encodedRuns, map_flatMap]
  simp only [hpi]
  rw [unpacked_flatMap positive, map_flatMap]
  · apply flatMap_congr
    intro repetition hl
    rw [unpacked_flatMap positive (hp repetition hl), map_flatMap, map_flatMap]
    apply flatMap_congr
    intro run hm
    rw [unpacked_slice positive hle (hf repetition hl run hm), map_some_slice]
    · congr 2 <;> ring
    · rw [length_unpacked positive hle, ← add_mul]
      exact mul_le_mul_right _ (hf repetition hl run hm)
  · intro repetition hl
    rw [length_flatMap]
    apply dvd_sum
    intro total hm
    obtain ⟨run, hc, rfl⟩ := mem_map.mp hm
    exact hp repetition hl run hc

end Eredu.RowMajor
