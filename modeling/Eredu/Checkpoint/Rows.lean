import Eredu.Checkpoint.Selection
import Eredu.Foundation.Agreement
import Mathlib.Data.List.Dedup
import Mathlib.Data.List.GetD
import Mathlib.Data.List.Sort

/-!
# Row reads

A plan reads the requested rows of a matrix once each, in runs of neighbouring rows
of bounded length, and remembers where every request finds its row.
-/

namespace Eredu.Checkpoint

open List Effect

variable {ρ ε : Type}

structure RowReadLimits where
  requests : Nat
  rowsPerRead : Nat

inductive RowReadError (ε : Type) where
  | recipe (cause : ε)
  | invalidLimits
  | requestLimit (requested limit : Nat)
  | outOfRange (row rows : Nat)

/-- The recipe for the distinct rows at the places from `start` to before `finish`. -/
structure RowRead (ρ : Type) where
  start : Nat
  finish : Nat
  recipe : ρ

structure RowReadPlan (ρ : Type) where
  unique : List Nat
  restore : List Nat
  reads : List (RowRead ρ)

/-- A matrix of `rowCount` rows, and the recipes for its selections that can be pushed down. -/
structure PreparedRowSource (ρ ε : Type) where
  rowCount : Nat
  selectBounded : TensorSelection → Except ε ρ

/-- The inner loop, which takes neighbours along while the read has room for them. -/
def runEnd (unique : List Nat) (rowsPerRead start finish : Nat) : Nat :=
  if finish < unique.length ∧ finish - start < rowsPerRead ∧
      unique.getD finish 0 = unique.getD (finish - 1) 0 + 1 then
    runEnd unique rowsPerRead start (finish + 1)
  else
    finish
termination_by unique.length - finish

theorem le_runEnd (unique : List Nat) (rowsPerRead start finish : Nat) :
    finish ≤ runEnd unique rowsPerRead start finish := by
  fun_induction runEnd unique rowsPerRead start finish with
  | case1 finish _ ih => omega
  | case2 => exact Nat.le_refl _

namespace PreparedRowSource

variable (source : PreparedRowSource ρ ε)

def readsFrom (unique : List Nat) (rowsPerRead start : Nat) : Except ε (List (RowRead ρ)) :=
  if start < unique.length then do
    let finish := runEnd unique rowsPerRead start (start + 1)
    let recipe ← source.selectBounded
      (.range 0 (unique.getD start 0) (unique.getD (finish - 1) 0 + 1))
    return ⟨start, finish, recipe⟩ :: (← readsFrom unique rowsPerRead finish)
  else
    return []
termination_by unique.length - start
decreasing_by
  have := le_runEnd unique rowsPerRead start (start + 1)
  omega

/-- Once they are sorted, equal rows are neighbours and `dedup` leaves one of them, so
`binary_search` can only find the one place of a row. -/
def plan (rows : List Nat) (limits : RowReadLimits) :
    Except (Fault (RowReadError ε)) (RowReadPlan ρ) := do
  reject (.error .invalidLimits) (limits.requests = 0 ∨ limits.rowsPerRead = 0)
  reject (.error (.requestLimit rows.length limits.requests)) (limits.requests < rows.length)
  rows.forM fun row => reject (.error (.outOfRange row source.rowCount)) (source.rowCount ≤ row)
  let unique := (rows.insertionSort (· ≤ ·)).dedup
  let restore ← rows.mapM fun row => required (.panic "validated requested row") (unique.idxOf? row)
  let reads ← (source.readsFrom unique limits.rowsPerRead 0).mapError (.error <| .recipe ·)
  return ⟨unique, restore, reads⟩

/-- The recipe is the pushed down selection of exactly these rows. -/
def Selects (recipe : ρ) (rows : List Nat) : Prop :=
  ∃ first, source.selectBounded (.range 0 first (first + rows.length)) = .ok recipe ∧
    rows = range' first rows.length

end PreparedRowSource

def RowRead.rows (unique : List Nat) (read : RowRead ρ) : List Nat :=
  (unique.drop read.start).take (read.finish - read.start)

/-- Why a plan is refused. -/
inductive Refusal (source : PreparedRowSource ρ ε) (rows : List Nat) (limits : RowReadLimits) :
    Fault (RowReadError ε) → Prop
  | limits (zero : limits.requests = 0 ∨ limits.rowsPerRead = 0) :
    Refusal source rows limits (.error .invalidLimits)
  | requests (many : limits.requests < rows.length) :
    Refusal source rows limits (.error (.requestLimit rows.length limits.requests))
  | range {row : Nat} (requested : row ∈ rows) (outside : source.rowCount ≤ row) :
    Refusal source rows limits (.error (.outOfRange row source.rowCount))
  | recipe {first last : Nat} {cause : ε} (nonempty : first < last)
    (requested : ∀ row, first ≤ row → row < last → row ∈ rows)
    (stuck : source.selectBounded (.range 0 first last) = .error cause) :
    Refusal source rows limits (.error (.recipe cause))

/-- What a plan promises about the rows it was asked for. -/
structure RowReadPlan.Exact (source : PreparedRowSource ρ ε) (rows : List Nat)
    (limits : RowReadLimits) (plan : RowReadPlan ρ) : Prop where
  distinct : plan.unique.Nodup ∧ ∀ row, row ∈ plan.unique ↔ row ∈ rows
  destinations : plan.reads.flatMap (fun read => range' read.start (read.finish - read.start)) =
    range plan.unique.length
  bounded : ∀ read ∈ plan.reads,
    read.start < read.finish ∧ read.finish - read.start ≤ limits.rowsPerRead
  selected : ∀ read ∈ plan.reads, source.Selects read.recipe (read.rows plan.unique)
  restored : plan.restore.map (fun place => (plan.reads.flatMap (·.rows plan.unique))[place]?) =
    rows.map some

theorem runEnd_spec {unique : List Nat} {rowsPerRead start finish : Nat} (hs : start < finish)
    (hf : finish ≤ unique.length) (hr : finish ≤ start + rowsPerRead)
    (hc : ∀ place, start ≤ place → place < finish →
      unique.getD place 0 + start = unique.getD start 0 + place) :
    ∃ size, runEnd unique rowsPerRead start finish = start + size ∧ 0 < size ∧
      size ≤ rowsPerRead ∧ start + size ≤ unique.length ∧
      ∀ offset < size, unique.getD (start + offset) 0 = unique.getD start 0 + offset := by
  fun_induction runEnd unique rowsPerRead start finish with
  | case1 finish hn ih =>
    refine ih (by omega) (by omega) (by omega) fun place hl hb => ?_
    rcases Nat.lt_succ_iff_lt_or_eq.mp hb with hb | rfl
    · exact hc place hl hb
    · have := hc (place - 1) (by omega) (by omega)
      omega
  | case2 finish =>
    refine ⟨finish - start, by omega, by omega, by omega, by omega, fun offset ho => ?_⟩
    have := hc (start + offset) (by omega) (by omega)
    omega

theorem concludes_reject {α : Type} {cause : α} {bad : Prop} [Decidable bad] {refused : α → Prop}
    (hr : bad → refused cause) : Concludes (reject cause bad) (fun _ => ¬ bad) refused := by
  unfold reject
  split
  · exact hr ‹_›
  · assumption

theorem concludes_forM {α β : Type} {items : List α} {check : α → Except β Unit}
    {good : α → Prop} {refused : β → Prop}
    (hc : ∀ item ∈ items, Concludes (check item) (fun _ => good item) refused) :
    Concludes (items.forM check) (fun _ => ∀ item ∈ items, good item) refused := by
  induction items with
  | nil => exact nofun
  | cons item items ih =>
    refine (hc item mem_cons_self).bind fun _ hg => ?_
    exact (ih fun other ho => hc other (mem_cons_of_mem _ ho)).mono fun _ hr =>
      forall_mem_cons.mpr ⟨hg, hr⟩

namespace PreparedRowSource

variable {source : PreparedRowSource ρ ε} {unique : List Nat} {rowsPerRead : Nat}

theorem readsFrom_concludes (hp : 0 < rowsPerRead) {start : Nat} (hs : start ≤ unique.length) :
    Concludes (source.readsFrom unique rowsPerRead start) (fun reads =>
        reads.flatMap (fun read => range' read.start (read.finish - read.start)) =
          range' start (unique.length - start) ∧ reads.flatMap (·.rows unique) = unique.drop start ∧
        ∀ read ∈ reads, (read.start < read.finish ∧ read.finish - read.start ≤ rowsPerRead) ∧
          source.Selects read.recipe (read.rows unique)) fun cause => ∃ first last, first < last ∧
        (∀ row, first ≤ row → row < last → row ∈ unique) ∧
        source.selectBounded (.range 0 first last) = .error cause := by
  induction hn : unique.length - start using Nat.strong_induction_on generalizing start with
  | _ left ih =>
    subst hn
    rw [readsFrom]
    split
    · rename_i hb
      obtain ⟨size, hf, hz, hr, hl, hc⟩ := @runEnd_spec unique rowsPerRead start (start + 1)
        (by omega) hb (by omega) fun place _ _ => by rw [show place = start by omega]
      have hn : ((unique.drop start).take size).length = size := by
        rw [length_take, length_drop]
        omega
      have hw : (unique.drop start).take size = range' (unique.getD start 0) size := by
        refine ext_getElem (by rw [hn, length_range']) fun place hp _ => ?_
        have := hc place (by omega)
        rw [getD_eq_getElem _ _ (by omega)] at this
        simpa using this
      have hx : unique.getD (start + size - 1) 0 + 1 = unique.getD start 0 + size := by
        have := hc (size - 1) (by omega)
        rw [show start + (size - 1) = start + size - 1 by omega] at this
        omega
      simp only [hf, hx]
      cases hse : source.selectBounded
          (.range 0 (unique.getD start 0) (unique.getD start 0 + size)) with
      | error cause =>
        refine ⟨_, _, by omega, fun row hr hb => ?_, hse⟩
        have hm : row ∈ (unique.drop start).take size := by
          rw [hw, mem_range'_1]
          exact ⟨hr, hb⟩
        exact mem_of_mem_drop (mem_of_mem_take hm)
      | ok recipe =>
        rw [ok_bind]
        refine (ih (unique.length - (start + size)) (by omega) hl rfl).bind
          fun reads ⟨hd, hg, ha⟩ => ?_
        have hrow : RowRead.rows unique ⟨start, start + size, recipe⟩ =
            (unique.drop start).take size := by
          rw [RowRead.rows, Nat.add_sub_cancel_left]
        refine ⟨?_, ?_, forall_mem_cons.mpr ⟨⟨⟨?_, ?_⟩, unique.getD start 0, ?_⟩, ha⟩⟩
        · rw [flatMap_cons, hd, Nat.add_sub_cancel_left, range'_append_1]
          congr 1
          omega
        · rw [flatMap_cons, hg, hrow, ← drop_drop, take_append_drop]
        · exact Nat.lt_add_of_pos_right hz
        · exact (Nat.add_sub_cancel_left ..).trans_le hr
        · rw [hrow, hn]
          exact ⟨hse, hw⟩
    · rename_i hb
      obtain rfl : start = unique.length := by omega
      exact ⟨by simp, by simp, nofun⟩

theorem plan_concludes (rows : List Nat) (limits : RowReadLimits) :
    Concludes (source.plan rows limits)
      (fun plan => rows.length ≤ limits.requests ∧ (∀ row ∈ rows, row < source.rowCount) ∧
        plan.Exact source rows limits) (Refusal source rows limits) := by
  refine (concludes_reject .limits).bind fun _ hz => ?_
  refine (concludes_reject .requests).bind fun _ hm => ?_
  refine (concludes_forM fun row hr => concludes_reject (.range hr)).bind fun _ hi => ?_
  have hd := nodup_dedup (rows.insertionSort (· ≤ ·))
  have hu : ∀ row, row ∈ (rows.insertionSort (· ≤ ·)).dedup ↔ row ∈ rows := by simp
  generalize (rows.insertionSort (· ≤ ·)).dedup = unique at *
  dsimp only
  have hre : Concludes (rows.mapM fun row =>
      required (Fault.panic "validated requested row") (unique.idxOf? row))
      (Forall₂ (fun row place => unique[place]? = some row) rows) (Refusal source rows limits) := by
    refine concludes_mapM fun row hr => ?_
    obtain ⟨place, hp⟩ := Option.isSome_iff_exists.mp (isSome_idxOf?.mpr ((hu row).mpr hr))
    obtain ⟨hl, he, -⟩ := idxOf?_eq_some_iff.mp hp
    rw [hp]
    exact List.getElem?_eq_some_iff.mpr ⟨hl, he⟩
  refine hre.bind fun restore hre => ?_
  have hread := @readsFrom_concludes ρ ε source unique limits.rowsPerRead (by omega) 0 (Nat.zero_le _)
  cases he : source.readsFrom unique limits.rowsPerRead 0 with
  | error cause =>
    rw [he] at hread
    obtain ⟨first, last, hl, hw, hs⟩ := hread
    exact .recipe hl (fun row hf hb => (hu row).mp (hw row hf hb)) hs
  | ok reads =>
    rw [he] at hread
    obtain ⟨hde, hg, ha⟩ := hread
    refine ⟨by omega, fun row hr => not_le.mp (hi row hr), ⟨hd, hu⟩, ?_,
      fun read hr => (ha read hr).1, fun read hr => (ha read hr).2, ?_⟩
    · rw [hde, range_eq_range', Nat.sub_zero]
    · rw [hg, drop_zero]
      refine (congrFun₂ forall₂_eq_eq_eq _ _).mp ?_
      rw [forall₂_map_left_iff, forall₂_map_right_iff]
      exact hre.flip

end PreparedRowSource

/-- Every plan is exact. Rows that are all there get one unless a selection of them cannot be
pushed down, and others get an error. -/
theorem row_plan_exact (source : PreparedRowSource ρ ε) (rows : List Nat) (limits : RowReadLimits) :
    (∀ plan, source.plan rows limits = .ok plan → plan.Exact source rows limits) ∧
    (0 < limits.requests → 0 < limits.rowsPerRead → rows.length ≤ limits.requests →
      (∀ row ∈ rows, row < source.rowCount) →
      (∀ first last, first < last → (∀ row, first ≤ row → row < last → row ∈ rows) →
        ∃ recipe, source.selectBounded (.range 0 first last) = .ok recipe) →
      ∃ plan, source.plan rows limits = .ok plan) ∧
    (limits.requests < rows.length ∨ (∃ row ∈ rows, source.rowCount ≤ row) →
      ∃ cause, source.plan rows limits = .error (.error cause)) := by
  have hc := source.plan_concludes rows limits
  cases he : source.plan rows limits with
  | ok plan =>
    rw [he] at hc
    obtain ⟨hl, hi, hx⟩ := hc
    refine ⟨?_, fun _ _ _ _ _ => ⟨plan, rfl⟩, ?_⟩
    · rintro _ ⟨⟩
      exact hx
    · rintro (hm | ⟨row, hr, ho⟩)
      · omega
      · exact absurd (hi row hr) (by omega)
  | error fault =>
    rw [he] at hc
    refine ⟨nofun, fun hq hp hl hi hs => ?_, fun _ => ?_⟩
    · cases hc with
      | limits hz => omega
      | requests hm => omega
      | range hr ho => exact absurd (hi _ hr) (by omega)
      | recipe hn hr hst =>
        obtain ⟨recipe, ho⟩ := hs _ _ hn hr
        rw [hst] at ho
        cases ho
    · cases hc <;> exact ⟨_, rfl⟩

end Eredu.Checkpoint
