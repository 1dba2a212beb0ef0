import Eredu.Residency.Accounting

/-!
# Batch reservation

A reservation is decided before anything is written: the batch passes its checks
(`Requested`), the copies that may go are put in order (`EvictionOrder`), and the
victims are the shortest prefix of them that makes room. What follows cannot
fail on an accounted ledger, so a reservation that fails has written nothing.
-/

namespace Eredu.Residency

open Std Effect ResidencyLedger List Word View Nat

/-- The operations in which an inconsistent state is the caller's mistake: the copy it names is not
in the lifecycle it needs. -/
def callerOperations : List String :=
  ["publication lookup", "publication lifecycle", "pin", "touch"]

/-- An error that does not point at broken books. -/
def CallerError : ResidencyLedgerError → Prop
  | .stateInconsistent _ _ operation => operation ∈ callerOperations
  | _ => True

/-- The capacity is short; the request itself is in order. -/
def Exhausted : ResidencyLedgerError → Prop
  | .budgetExhausted .. => True
  | _ => False

abbrev View := OffloadUnitId → MemoryTier → Option Ownership

/-- The request itself is at fault. -/
def RequestError : ResidencyLedgerError → Prop
  | .stateInconsistent .. | .budgetExhausted .. => False
  | _ => True

theorem RequestError.blames {cause : ResidencyLedgerError} (hr : RequestError cause) :
    CallerError cause ∧ ¬ Exhausted cause := by
  cases cause <;> first | exact hr.elim | exact ⟨trivial, id⟩

/-- A check passes exactly when `passes` holds, and blames the request otherwise. -/
def Decides {α : Type} (result : Except ResidencyLedgerError α) (passes : Prop) : Prop :=
  Concludes result (fun _ => passes) fun cause => RequestError cause ∧ ¬ passes

section Checks

variable {ledger : ResidencyLedger} {tier : MemoryTier}

theorem validateLedgerTier_decides (tier : MemoryTier) (operation : String) :
    Decides (validateLedgerTier tier operation) (tier ≠ .disk) := by
  unfold validateLedgerTier
  split
  · rename_i hd
    exact ⟨trivial, fun hr => hr hd⟩
  · rename_i hr
    exact hr

section

variable (he : EntriesJustified ledger)
include he

theorem spec_decides (id : OffloadUnitId) :
    Decides (ledger.spec id) (ledger.plan.unit id).isSome := by
  unfold spec
  cases hl : ledger.units[id]? with
  | some unit => exact Option.isSome_of_eq_some (he id unit hl).1
  | none =>
    cases hp : ledger.plan.unit id with
    | none => exact ⟨trivial, by simp⟩
    | some spec => rfl

theorem checkBatch_decides (seen ids : List OffloadUnitId) : Decides (checkBatch ledger seen ids)
      (ids.Nodup ∧ ∀ id ∈ ids, id ∉ seen ∧ (ledger.plan.unit id).isSome) := by
  induction ids generalizing seen with
  | nil => exact ⟨nodup_nil, by simp⟩
  | cons id rest ih =>
    unfold checkBatch
    split
    · rename_i hs
      exact ⟨trivial, fun hv => (hv.2 id mem_cons_self).1 hs⟩
    · rename_i hf
      have hs := spec_decides he id
      cases hk : ledger.spec id with
      | error cause =>
        rw [hk] at hs
        exact ⟨hs.1, fun hv => hs.2 (hv.2 id mem_cons_self).2⟩
      | ok spec =>
        rw [hk] at hs
        have hr := ih (id :: seen)
        have hu : (rest.Nodup ∧ ∀ other ∈ rest, other ∉ id :: seen ∧
            (ledger.plan.unit other).isSome) ↔ (id :: rest).Nodup ∧
              ∀ other ∈ id :: rest, other ∉ seen ∧ (ledger.plan.unit other).isSome := by
          rw [nodup_cons, forall_mem_cons]
          simp only [mem_cons, not_or]
          constructor
          · rintro ⟨hd, ho⟩
            exact ⟨⟨fun ha => (ho id ha).1.1 rfl, hd⟩, ⟨hf, hs⟩, fun other hl =>
              ⟨(ho other hl).1.2, (ho other hl).2⟩⟩
          · rintro ⟨⟨ha, hd⟩, -, ho⟩
            refine ⟨hd, fun other hl => ⟨⟨?_, (ho other hl).1⟩, (ho other hl).2⟩⟩
            rintro rfl
            exact ha hl
        rwa [hu] at hr

theorem validateBatch_decides (ids : List OffloadUnitId)
    (tier : MemoryTier) : Decides (validateBatch ledger ids tier)
      (tier ≠ .disk ∧ ids.Nodup ∧ ∀ id ∈ ids, (ledger.plan.unit id).isSome) := by
  unfold validateBatch
  have ht := validateLedgerTier_decides tier "residency batch"
  have hb := checkBatch_decides he [] ids
  cases hc : validateLedgerTier tier "residency batch" with
  | error cause =>
    rw [hc] at ht
    exact ⟨ht.1, fun hv => ht.2 hv.1⟩
  | ok done =>
    rw [hc] at ht
    have hr : tier ≠ .disk := ht
    rw [ok_bind]
    simpa [hr] using hb

end

theorem admitRequests_concludes {start : Nat} (hs : start ≤ maximum)
    (requests : List (OffloadUnitId × Nat)) : Concludes (admitRequests ledger tier start requests)
      (fun required => required = start + (requests.map (·.2)).sum ∧ required ≤ maximum ∧
        ∀ request ∈ requests, request.2 ≠ 0 ∧ ledger.copy request.1 tier = none)
      (fun cause => RequestError cause ∧ ¬ (start + (requests.map (·.2)).sum ≤ maximum ∧
          ∀ request ∈ requests, request.2 ≠ 0 ∧ ledger.copy request.1 tier = none)) := by
  induction requests generalizing start with
  | nil => exact ⟨by simp, hs, by simp⟩
  | cons request rest ih =>
    obtain ⟨id, bytes⟩ := request
    unfold admitRequests
    simp only [map_cons, sum_cons, forall_mem_cons, ← add_assoc]
    split
    · rename_i hz
      exact ⟨trivial, fun hv => hv.2.1.1 hz⟩
    · rename_i hz
      split
      · rename_i ha
        refine ⟨trivial, fun hv => ?_⟩
        rw [hv.2.1.2] at ha
        cases ha
      · rename_i ha
        have hm : ledger.copy id tier = none := by simpa using ha
        cases hc : checkedAdd start bytes with
        | none =>
          refine ⟨trivial, fun hv => ?_⟩
          have hf := checkedAdd_eq_some.mpr ⟨rfl, (le_add_right _ _).trans hv.1⟩
          rw [hc] at hf
          cases hf
        | some sum =>
          obtain ⟨rfl, hf⟩ := checkedAdd_eq_some.mp hc
          simpa only [hm, hz, ne_eq, not_false_eq_true, true_and] using ih hf

end Checks

variable {id : OffloadUnitId}

section Eviction

variable {ledger : ResidencyLedger} {tier : MemoryTier} {protectedIds : TreeSet OffloadUnitId}

def View.bytes (view : View) (tier : MemoryTier) (id : OffloadUnitId) : Nat :=
  (view id tier).elim 0 (·.bytes)

def Evictable (view : View) (tier : MemoryTier) (id : OffloadUnitId) : Prop :=
  ∃ owned, view id tier = some owned ∧ owned.lifecycle = .resident ∧ owned.pins = 0

theorem view_eq_some {owned : Ownership} (hs : ledger.view id tier = some owned) :
    ∃ copy, ledger.copy id tier = some copy ∧ copy.ownership = owned :=
  Option.map_eq_some_iff.mp hs

variable {unit : LedgerUnit}

theorem view_of_listed (id : OffloadUnitId) (tier : MemoryTier) {copy : LedgerCopy}
    (hl : ledger.units[id]? = some unit) (ho : unit.copy tier = some copy) :
    ledger.view id tier = some copy.ownership := by
  simp [view, ResidencyLedger.copy, hl, ho]

/-- The key by which a copy goes: windowed units before cacheable ones, then by frequency where the
policy counts it, then by last use. -/
def evictionKey (ledger : ResidencyLedger) (unit : LedgerUnit) (copy : LedgerCopy) : Candidate where
  priority := if unit.spec.policy = .windowed then 0 else 1
  frequency := if ledger.plan.config.evictionPolicy = .leastFrequentlyUsed then copy.frequency else 0
  lastUsed := copy.lastUsed
  id := unit.spec.id

structure Spare (ledger : ResidencyLedger) (tier : MemoryTier) (protectedIds : TreeSet OffloadUnitId)
    (unit : LedgerUnit) (copy : LedgerCopy) : Prop where
  listed : ledger.units[unit.spec.id]? = some unit
  owned : unit.copy tier = some copy
  resident : copy.lifecycle = .resident
  unpinned : unit.spec.policy ≠ .pinned
  unleased : copy.pins = 0
  unprotected : protectedIds.contains unit.spec.id = false
  outside : ledger.inActiveWindow tier unit.spec.id = false

/-- All copies that may go, each once, in the order in which they go. -/
structure EvictionOrder (ledger : ResidencyLedger) (tier : MemoryTier)
    (protectedIds : TreeSet OffloadUnitId) (order : List Candidate) : Prop where
  complete : ∀ candidate, candidate ∈ order ↔
    ∃ unit copy, Spare ledger tier protectedIds unit copy ∧ candidate = evictionKey ledger unit copy
  sorted : order.Pairwise fun left right => left.order right = .lt

theorem EvictionOrder.evictable {order : List Candidate}
    (ho : EvictionOrder ledger tier protectedIds order) :
    ∀ id ∈ order.map (·.id), Evictable ledger.view tier id := by
  intro id hl
  obtain ⟨candidate, hc, rfl⟩ := mem_map.mp hl
  obtain ⟨unit, copy, hs, rfl⟩ := (ho.complete candidate).mp hc
  exact ⟨copy.ownership, view_of_listed _ tier hs.listed hs.owned, hs.resident, hs.unleased⟩

instance : TransCmp Candidate.order :=
  inferInstanceAs (TransCmp (compareLex (compareOn Candidate.priority)
    (compareLex (compareOn Candidate.frequency)
      (compareLex (compareOn Candidate.lastUsed) (compareOn Candidate.id)))))

theorem Candidate.id_eq_of_order {left right : Candidate} (he : left.order right = .eq) :
    left.id = right.id := by
  simp only [Candidate.order, Ordering.then_eq_eq] at he
  exact LawfulEqOrd.eq_of_compare he.2.2.2

theorem evictionCandidate_eq_some {candidate : Candidate}
    (hl : ledger.units[unit.spec.id]? = some unit) :
    evictionCandidate ledger tier protectedIds unit = some candidate ↔
      ∃ copy, Spare ledger tier protectedIds unit copy ∧ candidate = evictionKey ledger unit copy := by
  unfold evictionCandidate
  constructor
  · intro hc
    obtain ⟨copy, ho, hc⟩ := Option.bind_eq_some_iff.mp hc
    split at hc
    · cases hc
    rename_i hs
    simp only [not_or, not_not, Bool.not_eq_true] at hs
    obtain ⟨hr, hp, hu, hpr, hw⟩ := hs
    refine ⟨copy, ⟨hl, ho, hr, hp, hu, hpr, hw⟩, ?_⟩
    unfold evictionKey
    cases hpo : unit.spec.policy <;> cases hpl : ledger.plan.config.evictionPolicy <;> simp_all
  · rintro ⟨copy, hs, rfl⟩
    have hk : ¬ (copy.lifecycle ≠ .resident ∨ unit.spec.policy = .pinned ∨ copy.pins ≠ 0 ∨
        protectedIds.contains unit.spec.id = true ∨
          ledger.inActiveWindow tier unit.spec.id = true) := by
      simp [hs.resident, hs.unpinned, hs.unleased, hs.unprotected, hs.outside]
    simp only [hs.owned, Option.bind_eq_bind, Option.bind_some, hk, if_false]
    unfold evictionKey
    cases hpo : unit.spec.policy <;> cases hpl : ledger.plan.config.evictionPolicy <;> simp_all

section

variable (he : EntriesJustified ledger)
include he

theorem nodup_values : (ledger.values.map (·.spec.id)).Nodup := by
  have hk : ledger.values.map (·.spec.id) = ledger.units.keys := by
    rw [← TreeMap.map_fst_toList_eq_keys, values, map_map]
    apply map_congr_left
    rintro ⟨id, unit⟩ hl
    have hf := TreeMap.mem_toList_iff_getElem?_eq_some.mp hl
    exact OffloadPlan.unit_id (he id unit hf).1
  rw [hk]
  exact TreeMap.nodup_keys

theorem listed_of_values : unit ∈ ledger.values ↔ ledger.units[unit.spec.id]? = some unit := by
  unfold values
  simp only [mem_map, Prod.exists, exists_eq_right, TreeMap.mem_toList_iff_getElem?_eq_some]
  constructor
  · rintro ⟨id, hl⟩
    rwa [OffloadPlan.unit_id (he id unit hl).1]
  · exact fun hl => ⟨_, hl⟩

/-- The candidates of the ledger are put in order. -/
theorem exists_evictionOrder (tier : MemoryTier) (protectedIds : TreeSet OffloadUnitId) :
    ∃ order, EvictionOrder ledger tier protectedIds order ∧ (order.map (·.id)).Nodup ∧
      evictionCandidates ledger tier protectedIds = order.map (·.id) := by
  have hp := mergeSort_perm
    (ledger.values.filterMap (evictionCandidate ledger tier protectedIds))
    fun left right => (left.order right).isLE
  have hd : (((ledger.values.filterMap (evictionCandidate ledger tier protectedIds)).mergeSort
      fun left right => (left.order right).isLE).map (·.id)).Nodup := by
    rw [(hp.map (·.id)).nodup_iff, List.Nodup, pairwise_map, pairwise_filterMap]
    refine (pairwise_map.mp (nodup_values he)).imp_of_mem fun hl hl' hne _ hc _ hc' => ?_
    obtain ⟨-, -, rfl⟩ := (evictionCandidate_eq_some ((listed_of_values he).mp hl)).mp hc
    obtain ⟨-, -, rfl⟩ := (evictionCandidate_eq_some ((listed_of_values he).mp hl')).mp hc'
    exact hne
  refine ⟨_, ⟨fun candidate => ?_, ?_⟩, hd, rfl⟩
  · rw [hp.mem_iff, mem_filterMap]
    constructor
    · rintro ⟨unit, hl, hc⟩
      exact ⟨unit, (evictionCandidate_eq_some ((listed_of_values he).mp hl)).mp hc⟩
    · rintro ⟨unit, copy, hs, hc⟩
      exact ⟨unit, (listed_of_values he).mpr hs.listed,
        (evictionCandidate_eq_some hs.listed).mpr ⟨copy, hs, hc⟩⟩
  · have ht : ∀ first second third : Candidate, (first.order second).isLE →
        (second.order third).isLE → (first.order third).isLE :=
      fun _ _ _ => TransCmp.isLE_trans
    have ho : ∀ left right : Candidate, (left.order right).isLE || (right.order left).isLE := by
      intro left right
      rw [@OrientedCmp.eq_swap _ Candidate.order]
      cases right.order left <;> rfl
    have hs := pairwise_mergeSort ht ho
      (ledger.values.filterMap (evictionCandidate ledger tier protectedIds))
    -- Two candidates of one key would be one unit.
    refine hs.imp₂ (fun left right hle hne => ?_) (pairwise_map.mp hd)
    cases ho : left.order right with
    | lt => rfl
    | eq => exact absurd (Candidate.id_eq_of_order ho) hne
    | gt =>
      rw [ho] at hle
      cases hle

end

end Eviction

variable {victims : List OffloadUnitId}

section Room

variable {ledger : ResidencyLedger} {tier : MemoryTier}

/-- Evicting these copies makes room for the required bytes; without a budget there always is. -/
def Fits (ledger : ResidencyLedger) (tier : MemoryTier) (required : Nat)
    (ids : List OffloadUnitId) : Prop :=
  ∀ budget, ledger.budget tier = some budget →
    ledger.tierBytes tier + required ≤ budget + (ids.map (bytes ledger.view tier)).sum

structure Shortest (ledger : ResidencyLedger) (tier : MemoryTier) (required : Nat)
    (ids : List OffloadUnitId) (count : Nat) : Prop where
  fits : Fits ledger tier required (ids.take count)
  least : ∀ fewer < count, ¬ Fits ledger tier required (ids.take fewer)

theorem removeVictims_yields (accounted : Accounted ledger)
    (hd : victims.Nodup) (owned : ∀ id ∈ victims, Evictable ledger.view tier id) :
    (victims.mapM fun victim => removeCopy victim tier true).Yields ledger
      (fun evicted after => Accounted after ∧ after.plan = ledger.plan ∧
        (∀ id tier', after.view id tier' =
          if tier' = tier ∧ id ∈ victims then none else ledger.view id tier') ∧
        after.tierBytes tier + (victims.map (bytes ledger.view tier)).sum =
          ledger.tierBytes tier ∧ (victims = [] → after = ledger) ∧
        evicted = victims.map fun id => ⟨id, tier, bytes ledger.view tier id⟩)
      (fun _ _ => False) := by
  induction victims generalizing ledger with
  | nil => exact ⟨accounted, rfl, by simp, by simp, fun _ => rfl, rfl⟩
  | cons victim rest ih =>
    obtain ⟨hfr, hd'⟩ := nodup_cons.mp hd
    obtain ⟨⟨held, hs, -⟩, ho⟩ := forall_mem_cons.mp owned
    obtain ⟨copy, hf, -⟩ := view_eq_some hs
    have hb : bytes ledger.view tier victim = copy.bytes := by
      simp [bytes, view, hf, LedgerCopy.ownership]
    rw [mapM_cons]
    refine (removeCopy_yields accounted hf true).andThen ?_
    rintro _ middle ⟨ha', hp, hv, hc, rfl⟩
    -- The other victims are still where they were.
    have hk : ∀ id ∈ rest, middle.view id tier = ledger.view id tier := by
      intro id hl
      rw [hv, View.set, if_neg]
      rintro ⟨rfl, -⟩
      exact hfr hl
    have hw : ∀ id ∈ rest, bytes middle.view tier id = bytes ledger.view tier id :=
      fun id hl => by rw [bytes, bytes, hk id hl]
    have he : ∀ id ∈ rest, Evictable middle.view tier id := by
      intro id hl
      obtain ⟨owned, hs, hst⟩ := ho id hl
      exact ⟨owned, (hk id hl).trans hs, hst⟩
    refine (ih ha' hd' he).andThen ?_
    rintro _ after ⟨ha'', hp', hv', hc', -, rfl⟩
    refine ⟨ha'', hp'.trans hp, fun id tier' => ?_, ?_, (absurd · (cons_ne_nil _ _)), ?_⟩
    · rw [hv', hv, View.set]
      by_cases hsa : tier' = tier
      · by_cases hfi : id = victim <;> simp [hsa, hfi]
      · simp [hsa]
    · rw [map_congr_left hw] at hc'
      rw [map_cons, sum_cons, hb]
      omega
    · rw [map_cons, hb, map_congr_left fun id hl => by rw [hw id hl]]

variable {ids : List OffloadUnitId}

/-- All candidates could go, so their bytes are charged. -/
theorem sum_bytes_le (accounted : Accounted ledger) (hd : ids.Nodup)
    (he : ∀ id ∈ ids, Evictable ledger.view tier id) :
    (ids.map (bytes ledger.view tier)).sum ≤ ledger.tierBytes tier := by
  have hr := removeVictims_yields accounted hd he
  unfold Yields at hr
  split at hr
  · omega
  · exact hr.elim

theorem chooseVictims_eq {required start : Nat} {candidates : List OffloadUnitId}
    (he : ∀ id ∈ candidates, Evictable ledger.view tier id)
    (hf : start + (candidates.map (bytes ledger.view tier)).sum ≤ maximum)
    (hs : start < required) :
    ∃ count, chooseVictims ledger tier required start candidates = .ok (candidates.take count,
        start + ((candidates.take count).map (bytes ledger.view tier)).sum) ∧ (∀ fewer < count,
        start + ((candidates.take fewer).map (bytes ledger.view tier)).sum < required) ∧
      (candidates.take count = candidates ∨
        required ≤ start + ((candidates.take count).map (bytes ledger.view tier)).sum) := by
  induction candidates generalizing start with
  | nil => exact ⟨0, rfl, by simp, .inl rfl⟩
  | cons victim rest ih =>
    obtain ⟨⟨held, hv, -⟩, ho⟩ := forall_mem_cons.mp he
    obtain ⟨copy, hc, -⟩ := view_eq_some hv
    have hb : bytes ledger.view tier victim = copy.bytes := by
      simp [bytes, view, hc, LedgerCopy.ownership]
    rw [map_cons, sum_cons, hb, ← add_assoc] at hf
    have ha : checkedAdd start copy.bytes = some (start + copy.bytes) :=
      checkedAdd_eq_some.mpr ⟨rfl, (le_add_right _ _).trans hf⟩
    unfold chooseVictims
    simp only [hc, ha]
    split
    · rename_i hr
      refine ⟨1, by simp [hb], fun fewer hl => ?_, .inr (by simpa [hb] using hr)⟩
      simpa [lt_one_iff.mp hl] using hs
    · rename_i hr
      obtain ⟨count, hch, hl, hd⟩ := ih ho hf (Nat.lt_of_not_le hr)
      refine ⟨count + 1, ?_, fun fewer hlt => ?_, ?_⟩
      · simp [hch, hb, Except.map, add_assoc]
      · cases fewer with
        | zero => simpa using hs
        | succ fewer => simpa [hb, add_assoc] using hl fewer (lt_of_succ_lt_succ hlt)
      · simpa [hb, add_assoc] using hd

theorem planEvictions_concludes {protectedIds : TreeSet OffloadUnitId}
    (accounted : Accounted ledger) (hc : evictionCandidates ledger tier protectedIds = ids)
    (hd : ids.Nodup) (he : ∀ id ∈ ids, Evictable ledger.view tier id) (requested : OffloadUnitId)
    (required : Nat) : Concludes (planEvictions ledger requested tier protectedIds required)
      (fun victims => ∃ count, Shortest ledger tier required ids count ∧ victims = ids.take count ∧
        (ledger.budget tier ≠ none → ledger.tierBytes tier + required ≤ maximum))
      (fun cause => CallerError cause ∧ (Exhausted cause ↔ ¬ Fits ledger tier required ids ∧
        ledger.tierBytes tier + required ≤ maximum)) := by
  unfold planEvictions
  cases hl : ledger.budget tier with
  | none => exact ⟨0, ⟨by simp [Fits, hl], by simp⟩, rfl, by simp⟩
  | some budget =>
    have hfi : ∀ bytes : List OffloadUnitId, Fits ledger tier required bytes ↔
        ledger.tierBytes tier + required ≤
          budget + (bytes.map (View.bytes ledger.view tier)).sum := by
      intro bytes
      simp [Fits, hl]
    simp only
    cases ha : checkedAdd (ledger.tierBytes tier) required with
    | none =>
      refine ⟨trivial, iff_of_false id fun hv => ?_⟩
      have hs := checkedAdd_eq_some.mpr ⟨rfl, hv.2⟩
      rw [ha] at hs
      cases hs
    | some needed =>
      obtain ⟨rfl, hf⟩ := checkedAdd_eq_some.mp ha
      simp only [hc]
      split
      · refine ⟨0, ⟨(hfi _).mpr ?_, by simp⟩, rfl, fun _ => hf⟩
        omega
      · rename_i hr
        have hs := sum_bytes_le accounted hd he
        have hre : 0 < ledger.tierBytes tier + required - budget := by omega
        obtain ⟨count, hch, hle, hend⟩ := chooseVictims_eq he (by omega) hre
        rw [hch, ok_bind]
        split
        · rename_i hsh
          refine ⟨trivial, iff_of_true trivial ⟨fun hv => ?_, hf⟩⟩
          rcases hend with hall | hen
          · have := (hfi _).mp hv
            rw [hall] at hsh
            omega
          · omega
        · refine ⟨count, ⟨(hfi _).mpr (by omega), fun fewer hlt hv => ?_⟩, rfl, fun _ => hf⟩
          have := (hfi _).mp hv
          have := hle fewer hlt
          omega

end Room

section Reserving

variable {ledger : ResidencyLedger} {tier : MemoryTier} {requests : List (OffloadUnitId × Nat)}

def View.reserve (tier : MemoryTier) : List (OffloadUnitId × Nat) → View → View
  | [], view => view
  | (id, bytes) :: rest, view =>
      reserve tier rest (set view id tier (some ⟨.reserved, bytes, 0, none⟩))

variable {view : View}

theorem reserve_other {tier' : MemoryTier} (ho : tier' = tier → id ∉ requests.map (·.1)) :
    reserve tier requests view id tier' = view id tier' := by
  induction requests generalizing view with
  | nil => rfl
  | cons request rest ih =>
    simp only [map_cons, mem_cons, not_or] at ho
    rw [View.reserve, ih fun hs => (ho hs).2, View.set, if_neg]
    exact fun hs => (ho hs.2).1 hs.1

theorem reserve_of_mem {request : OffloadUnitId × Nat} (hd : (requests.map (·.1)).Nodup)
    (hl : request ∈ requests) :
    reserve tier requests view request.1 tier = some ⟨.reserved, request.2, 0, none⟩ := by
  induction requests generalizing view with
  | nil => cases hl
  | cons first rest ih =>
    obtain ⟨hf, hd'⟩ := nodup_cons.mp hd
    rcases mem_cons.mp hl with rfl | hl
    · rw [View.reserve, reserve_other fun _ => hf, View.set, if_pos ⟨rfl, rfl⟩]
    · exact ih hd' hl

theorem insertReservation_yields {bytes : Nat} {due : Int} (hb : Balanced tier (bytes + due) ledger)
    (hr : tier ≠ .disk) (hk : (ledger.plan.unit id).isSome) (hab : ledger.view id tier = none) :
    (insertReservation tier (id, bytes)).Yields ledger
      (fun _ after => Balanced tier due after ∧ after.plan = ledger.plan ∧
        after.view = set ledger.view id tier (some ⟨.reserved, bytes, 0, none⟩))
      (fun _ _ => False) := by
  unfold insertReservation ensureEntry
  refine (nextTick_yields ledger).andThen fun tick after ha => ?_
  have hb := ha.balanced hb
  rw [← ha.view_eq] at hab ⊢
  simp only [yields_bind, yields_get]
  cases hl : after.units[id]? with
  | some unit =>
    have hp : after.units.contains id := by
      rw [TreeMap.contains_eq_isSome_getElem?, hl]
      rfl
    have hm : unit.copy tier = none := by
      simpa [view, copy, hl] using hab
    simp only [hp, if_true, yields_pure, hl, hr, if_false, yields_set]
    refine ⟨hb.setCopy hr hl _ ?_, ha.plan, view_setUnit hr hl _⟩
    simp only [LedgerUnit.bytesIn, hm, Option.elim_none]
    push_cast
    ring
  | none =>
    have hf : after.units.contains id = false := by
      rw [TreeMap.contains_eq_isSome_getElem?, hl]
      rfl
    obtain ⟨spec, hpl⟩ := Option.isSome_iff_exists.mp hk
    have hp' : after.plan.unit id = some spec := by rw [ha.plan, hpl]
    have hs : after.spec id = .ok spec := by
      simp [ResidencyLedger.spec, hl, hp']
    have hc : (after.setUnit id (emptyUnit spec)).units[id]? = some (emptyUnit spec) := by
      simp [setUnit]
    simp only [hf, Bool.false_eq_true, if_false, hs, yields_bind, yields_ofResult,
      yields_set, hc, hr]
    refine ⟨hb.newCopy hr hl hp' _ ?_, ha.plan, ?_⟩
    · push_cast
      ring
    · have hv := view_setUnit hr hc (some ⟨.reserved, bytes, 0, tick, 0, none⟩)
      rw [view_setUnit_empty hl] at hv
      exact hv

/-- Writing the reservations of a batch uses up what was charged for them. -/
theorem insertReservations_yields (hb : Balanced tier ((requests.map (·.2)).sum : Nat) ledger)
    (hre : tier ≠ .disk) (hd : (requests.map (·.1)).Nodup)
    (hk : ∀ request ∈ requests, (ledger.plan.unit request.1).isSome)
    (ha : ∀ request ∈ requests, ledger.view request.1 tier = none) :
    (requests.forM (insertReservation tier)).Yields ledger
      (fun _ after => Balanced tier 0 after ∧ after.plan = ledger.plan ∧
        after.view = reserve tier requests ledger.view) (fun _ _ => False) := by
  induction requests generalizing ledger with
  | nil => exact ⟨by simpa using hb, rfl, rfl⟩
  | cons request rest ih =>
    obtain ⟨id, bytes⟩ := request
    obtain ⟨hfr, hd'⟩ := nodup_cons.mp hd
    obtain ⟨hh, hot⟩ := forall_mem_cons.mp hk
    obtain ⟨hm, ho⟩ := forall_mem_cons.mp ha
    rw [map_cons, sum_cons, cast_add] at hb
    refine (insertReservation_yields hb hre hh hm).andThen ?_
    rintro _ middle ⟨hb', hp, hv⟩
    have hke : ∀ request ∈ rest, middle.view request.1 tier = none := by
      intro request hl
      rw [hv, View.set, if_neg]
      · exact ho request hl
      · rintro ⟨rfl, -⟩
        exact hfr (mem_map.mpr ⟨request, hl, rfl⟩)
    refine (ih hb' hd' (by simpa only [hp] using hot) hke).imp ?_
    rintro _ after ⟨hb'', hp', hv'⟩
    exact ⟨hb'', hp'.trans hp, by rw [hv', hv, reserve]⟩

structure Requested (ledger : ResidencyLedger) (tier : MemoryTier)
    (requests : List (OffloadUnitId × Nat)) : Prop where
  held : tier ≠ .disk
  distinct : (requests.map (·.1)).Nodup
  known : ∀ request ∈ requests, (ledger.plan.unit request.1).isSome
  sized : ∀ request ∈ requests, request.2 ≠ 0
  absent : ∀ request ∈ requests, ledger.view request.1 tier = none
  representable : (requests.map (·.2)).sum ≤ maximum

/-- A batch reserved at the expense of these victims. -/
structure Reserved (ledger : ResidencyLedger) (tier : MemoryTier)
    (requests : List (OffloadUnitId × Nat)) (victims : List OffloadUnitId) (view : View) : Prop where
  requested : Requested ledger tier requests
  reserved : ∀ request ∈ requests, view request.1 tier = some ⟨.reserved, request.2, 0, none⟩
  released : ∀ id ∈ victims, view id tier = none
  kept : ∀ id tier', (tier' = tier → id ∉ victims ∧ id ∉ requests.map (·.1)) →
    view id tier' = ledger.view id tier'

/-- A batch that passes its checks runs short of capacity: what may go does not make room. -/
def Short (ledger : ResidencyLedger) (tier : MemoryTier) (requests : List (OffloadUnitId × Nat))
    (ids : List OffloadUnitId) : Prop :=
  Requested ledger tier requests ∧ ¬ Fits ledger tier (requests.map (·.2)).sum ids ∧
    ledger.tierBytes tier + (requests.map (·.2)).sum ≤ maximum

theorem Requested.reserve (hq : Requested ledger tier requests)
    (he : ∀ id ∈ victims, Evictable ledger.view tier id) (hv : ∀ id tier', view id tier' =
      if tier' = tier ∧ id ∈ victims then none else ledger.view id tier') :
    Reserved ledger tier requests victims (reserve tier requests view) := by
  refine ⟨hq, fun request hl => reserve_of_mem hq.distinct hl, fun id hl => ?_,
    fun id tier' ho => ?_⟩
  · rw [reserve_other fun _ hr => ?_, hv, if_pos ⟨rfl, hl⟩]
    obtain ⟨request, hl', rfl⟩ := mem_map.mp hr
    obtain ⟨owned, hs, -⟩ := he _ hl
    rw [hq.absent request hl'] at hs
    cases hs
  · rw [reserve_other fun hs => (ho hs).2, hv, if_neg fun hs => (ho hs.1).1 hs.2]

theorem Shortest.not_short {count : Nat}
    (shortest : Shortest ledger tier (requests.map (·.2)).sum ids count) :
    ¬ Short ledger tier requests ids := by
  rintro ⟨-, unfit, -⟩
  refine unfit fun budget limit => (shortest.fits budget limit).trans (Nat.add_le_add_left ?_ _)
  exact ((take_sublist count ids).map _).sum_le_sum fun _ _ => zero_le _

/-- Only an unlimited tier can overflow after a plan of evictions, and then nothing is evicted. -/
theorem Shortest.of_overflow {count required left : Nat}
    (shortest : Shortest ledger tier required ids count) (fewer : left ≤ ledger.tierBytes tier)
    (fits : ledger.budget tier ≠ none → ledger.tierBytes tier + required ≤ maximum)
    (overflow : checkedAdd left required = none) : count = 0 := by
  have unlimited : ledger.budget tier = none := by
    by_contra limited
    have sum := checkedAdd_eq_some.mpr
      ⟨rfl, (Nat.add_le_add_right fewer required).trans (fits limited)⟩
    rw [overflow] at sum
    cases sum
  by_contra some
  refine shortest.least 0 (pos_of_ne_zero some) fun budget limit => ?_
  rw [unlimited] at limit
  cases limit

/-- The batch is charged to a ledger that the victims have left, and its reservations are written. -/
theorem Requested.write_yields (requested : Requested ledger tier requests)
    {middle : ResidencyLedger} (accounted : Accounted middle) (plan : middle.plan = ledger.plan)
    (affordable : Affordable middle tier (middle.tierBytes tier + (requests.map (·.2)).sum))
    (evictable : ∀ id ∈ victims, Evictable ledger.view tier id)
    (left : ∀ id tier', middle.view id tier' =
      if tier' = tier ∧ id ∈ victims then none else ledger.view id tier') :
    (requests.forM (insertReservation tier)).Yields
      (middle.setTierBytes tier (middle.tierBytes tier + (requests.map (·.2)).sum))
      (fun _ after => Balanced tier 0 after ∧ after.plan = ledger.plan ∧
        Reserved ledger tier requests victims after.view) (fun _ _ => False) := by
  have balanced := accounted.charge tier affordable
  rw [show ((middle.tierBytes tier + (requests.map (·.2)).sum : Nat) : Int) -
    middle.tierBytes tier = ((requests.map (·.2)).sum : Nat) by push_cast; ring] at balanced
  have absent : ∀ request ∈ requests, middle.view request.1 tier = none := by
    intro request asked
    rw [left, requested.absent request asked]
    exact ite_self none
  have known : ∀ request ∈ requests, (middle.plan.unit request.1).isSome := by
    rw [plan]
    exact requested.known
  refine (insertReservations_yields balanced requested.held requested.distinct known absent).imp ?_
  rintro _ after ⟨settled, plan', view⟩
  rw [view]
  exact ⟨settled, plan'.trans plan, requested.reserve evictable left⟩

theorem reserveCopies_yields {protectedIds : TreeSet OffloadUnitId}
    (accounted : Accounted ledger) (hc : evictionCandidates ledger tier protectedIds = ids)
    (hd : ids.Nodup) (he : ∀ id ∈ ids, Evictable ledger.view tier id)
    (requests : List (OffloadUnitId × Nat)) :
    (reserveCopies requests tier protectedIds).Yields ledger
      (fun evicted after => Accounted after ∧ after.plan = ledger.plan ∧
        ¬ Short ledger tier requests ids ∧
        ∃ count, Shortest ledger tier (requests.map (·.2)).sum ids count ∧
          Reserved ledger tier requests (ids.take count) after.view ∧
          evicted = (ids.take count).map fun id => ⟨id, tier, bytes ledger.view tier id⟩)
      (fun fault after => after = ledger ∧ ∃ cause, fault = .error cause ∧ CallerError cause ∧
        (Exhausted cause ↔ Short ledger tier requests ids)) := by
  have blames : ∀ cause, RequestError cause → ¬ Requested ledger tier requests →
      ∃ cause', Fault.error cause = .error cause' ∧ CallerError cause' ∧
        (Exhausted cause' ↔ Short ledger tier requests ids) :=
    fun cause hr hn => ⟨cause, rfl, hr.blames.1, iff_of_false hr.blames.2 fun hs => hn hs.1⟩
  unfold reserveCopies
  refine .bind (yields_of_concludes (validateLedgerTier_decides tier _) (fun _ _ => ?_)
    fun cause hr => ⟨rfl, blames cause hr.1 fun asked => hr.2 asked.held⟩)
  rw [yields_bind, yields_get]
  refine .bind (yields_of_concludes (validateBatch_decides accounted.entries _ tier) ?_
    fun cause hr => ⟨rfl, blames cause hr.1 fun asked => hr.2 ⟨asked.held, asked.distinct, ?_⟩⟩)
  rotate_left
  · simpa using fun id bytes hl => asked.known (id, bytes) hl
  rintro _ ⟨held, distinct, known⟩
  refine .bind (yields_of_concludes (admitRequests_concludes (zero_le _) requests) ?_
    fun cause hr => ⟨rfl, blames cause hr.1 fun asked => hr.2 ⟨by simpa using asked.representable,
      fun request hl =>
        ⟨asked.sized request hl, Option.map_eq_none_iff.mp (asked.absent request hl)⟩⟩⟩)
  rintro required ⟨total, representable, fresh⟩
  rw [zero_add] at total
  subst total
  have requested : Requested ledger tier requests :=
    ⟨held, distinct, fun request hl => known _ (mem_map_of_mem hl),
      fun request hl => (fresh request hl).1,
      fun request hl => by rw [view, (fresh request hl).2, Option.map_none], representable⟩
  cases requests with
  | nil =>
    have shortest : Shortest ledger tier 0 ids 0 :=
      ⟨fun budget hl => (accounted.within tier).2 budget hl, by simp⟩
    exact ⟨accounted, rfl, shortest.not_short, 0, shortest,
      ⟨requested, by simp, by simp, fun _ _ _ => rfl⟩, rfl⟩
  | cons first others =>
    obtain ⟨requestedId, firstBytes⟩ := first
    dsimp only
    generalize (requestedId, firstBytes) :: others = requests at *
    refine .bind (yields_of_concludes (planEvictions_concludes accounted hc hd he requestedId _) ?_
      fun cause hp => ⟨rfl, cause, rfl, hp.1, hp.2.trans (and_iff_right requested).symm⟩)
    rintro victims ⟨count, shortest, rfl, fits⟩
    have evictable : ∀ id ∈ ids.take count, Evictable ledger.view tier id :=
      fun id hl => he id (mem_of_mem_take hl)
    refine .bind ((removeVictims_yields accounted (hd.sublist (take_sublist count ids))
      evictable).mono ?_ fun _ _ hi => hi.elim)
    rintro _ middle ⟨accounted', plan, left, charge, same, rfl⟩
    rw [yields_bind, yields_get]
    cases sum : checkedAdd (middle.tierBytes tier) (requests.map (·.2)).sum with
    | none =>
      have nothing := shortest.of_overflow (charge ▸ Nat.le_add_right _ _) fits sum
      exact ⟨same (by rw [nothing, take_zero]), _, rfl, trivial,
        iff_of_false id shortest.not_short⟩
    | some charged =>
      obtain ⟨rfl, within⟩ := checkedAdd_eq_some.mp sum
      have affordable : Affordable middle tier
          (middle.tierBytes tier + (requests.map (·.2)).sum) := by
        refine Affordable.of_plan ⟨within, fun budget limit => ?_⟩ plan
        have room := shortest.fits budget limit
        omega
      simp only [yields_bind]
      refine (requested.write_yields accounted' plan affordable evictable left).mono ?_
        fun _ _ hi => hi.elim
      rintro _ after ⟨settled, plan', reserved⟩
      exact ⟨settled.settle, plan', shortest.not_short, count, shortest, reserved, rfl⟩

end Reserving

end Eredu.Residency
