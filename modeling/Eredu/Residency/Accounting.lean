import Eredu.Foundation.MapTotal
import Eredu.Residency.Ledger

/-!
# Accounting of the residency ledger

The charged bytes of every tier are the bytes of the copies in it. Between the
first and the last write of a transition they are not: `Balanced` says by how
much the charge of one tier runs ahead of its copies, and `Accounted` is the
balance at rest, telemetry included. What a transition does to the copies
themselves is stated on the `view` of the ledger, which leaves recency out.
-/

namespace Eredu.Residency

open Std Effect ResidencyLedger LedgerUnit Option LedgerCopy

/-- A copy without its recency. -/
structure Ownership where
  lifecycle : CopyLifecycle
  bytes : Nat
  pins : Nat
  inFlight : Option Nat
  deriving DecidableEq, Repr

def LedgerCopy.ownership (copy : LedgerCopy) : Ownership :=
  ⟨copy.lifecycle, copy.bytes, copy.pins, copy.inFlight⟩

def ResidencyLedger.view (ledger : ResidencyLedger) (id : OffloadUnitId) (tier : MemoryTier) :
    Option Ownership :=
  (ledger.copy id tier).map ownership

def View.set (view : OffloadUnitId → MemoryTier → Option Ownership) (id : OffloadUnitId)
    (tier : MemoryTier) (owned : Option Ownership) (id' : OffloadUnitId) (tier' : MemoryTier) :
    Option Ownership :=
  if id' = id ∧ tier' = tier then owned else view id' tier'

variable {tier : MemoryTier} {unit : LedgerUnit}

namespace LedgerUnit

def bytesIn (tier : MemoryTier) (unit : LedgerUnit) : Nat := (unit.copy tier).elim 0 (·.bytes)

def residentIn (tier : MemoryTier) (unit : LedgerUnit) : Nat :=
  if ((unit.copy tier).bind status).isSome then 1 else 0

variable (unit)

def ownsCopy : Prop := ∃ tier, (unit.copy tier).isSome

@[simp] theorem setCopy_spec (tier : MemoryTier) (copy : Option LedgerCopy) :
    (unit.setCopy tier copy).spec = unit.spec := by
  cases tier <;> rfl

variable {unit}

theorem copy_setCopy (hr : tier ≠ .disk) (copy : Option LedgerCopy) (other : MemoryTier) :
    (unit.setCopy tier copy).copy other = if other = tier then copy else unit.copy other := by
  cases tier with
  | disk => exact absurd rfl hr
  | host => cases other <;> rfl
  | device => cases other <;> rfl

theorem bytesIn_of_not_ownsCopy (hb : ¬ unit.ownsCopy) (tier : MemoryTier) :
    unit.bytesIn tier = 0 := by
  cases hf : unit.copy tier with
  | none => simp [bytesIn, hf]
  | some copy => exact absurd ⟨tier, by simp [hf]⟩ hb

theorem residentIn_of_not_ownsCopy (hb : ¬ unit.ownsCopy) (tier : MemoryTier) :
    unit.residentIn tier = 0 := by
  cases hf : unit.copy tier with
  | none => simp [residentIn, hf]
  | some copy => exact absurd ⟨tier, by simp [hf]⟩ hb

variable (unit)

theorem ownsCopy_iff : unit.ownsCopy ↔ ¬ (unit.host.isNone && unit.device.isNone) := by
  constructor
  · rintro ⟨tier, hf⟩ hb
    rw [Bool.and_eq_true, isNone_iff_eq_none, isNone_iff_eq_none] at hb
    cases tier <;> simp [copy, hb.1, hb.2] at hf
  · intro ho
    rw [Bool.and_eq_true, not_and_or] at ho
    rcases ho with hh | hd
    · exact ⟨.host, by simpa [copy, isSome_iff_ne_none] using hh⟩
    · exact ⟨.device, by simpa [copy, isSome_iff_ne_none] using hd⟩

/-- A unit without the dates of its copies. -/
def undated : LedgerUnit :=
  { unit with
    host := unit.host.map fun copy => { copy with lastUsed := 0 }
    device := unit.device.map fun copy => { copy with lastUsed := 0 } }

variable (tier)

theorem copy_undated :
    unit.undated.copy tier = (unit.copy tier).map fun copy => { copy with lastUsed := 0 } := by
  cases tier <;> rfl

theorem bytesIn_undated : unit.undated.bytesIn tier = unit.bytesIn tier := by
  unfold bytesIn
  rw [copy_undated]
  cases unit.copy tier <;> rfl

theorem residentIn_undated : unit.undated.residentIn tier = unit.residentIn tier := by
  unfold residentIn
  rw [copy_undated]
  cases unit.copy tier <;> rfl

variable {tier}

theorem ownsCopy_undated : unit.undated.ownsCopy ↔ unit.ownsCopy := by
  simp [ownsCopy, copy_undated]

end LedgerUnit

variable (ledger : ResidencyLedger)

/-- One tier at rest: charge, copies and telemetry agree. -/
structure TierAccounted (tier : MemoryTier) : Prop where
  bytes : ledger.tierBytes tier = total (bytesIn tier) ledger.units
  telemetryBytes : ledger.telemetry.residentBytes.get tier = ledger.tierBytes tier
  telemetryUnits : ledger.telemetry.residentUnits.get tier = total (residentIn tier) ledger.units

def Affordable (tier : MemoryTier) (bytes : Nat) : Prop :=
  bytes ≤ Word.maximum ∧ ∀ budget, ledger.budget tier = some budget → bytes ≤ budget

variable {ledger : ResidencyLedger} {bytes : Nat}

theorem Affordable.mono {fewer : Nat} (ha : Affordable ledger tier bytes) (le : fewer ≤ bytes) :
    Affordable ledger tier fewer :=
  ⟨le.trans ha.1, fun budget hl => le.trans (ha.2 budget hl)⟩

theorem Affordable.of_plan {after : ResidencyLedger} (ha : Affordable ledger tier bytes)
    (hp : after.plan = ledger.plan) : Affordable after tier bytes := by
  unfold Affordable budget at *
  rw [hp]
  exact ha

variable (ledger)

def WithinBudget : Prop :=
  ∀ tier, Affordable ledger tier (ledger.tierBytes tier)

def EntryJustified (plan : OffloadPlan) (id : OffloadUnitId) (unit : LedgerUnit) : Prop :=
  plan.unit id = some unit.spec ∧ (plan.isExplicit id = true ∨ unit.ownsCopy)

def EntriesJustified : Prop :=
  ∀ id unit, ledger.units[id]? = some unit → EntryJustified ledger.plan id unit

structure Accounted : Prop where
  tiers : ∀ tier, TierAccounted ledger tier
  within : WithinBudget ledger
  entries : EntriesJustified ledger

variable {ledger}

/-- The charge of one tier runs ahead of its copies by `due`, or behind when that is negative; its
telemetry is not yet written. -/
structure Balanced (tier : MemoryTier) (due : Int) (ledger : ResidencyLedger) : Prop where
  bytes : (ledger.tierBytes tier : Int) = total (bytesIn tier) ledger.units + due
  others : ∀ other, other ≠ tier → TierAccounted ledger other
  within : WithinBudget ledger
  entries : EntriesJustified ledger

theorem Balanced.settle (hb : Balanced tier 0 ledger) :
    Accounted (ledger.updateResidentTelemetry tier) := by
  refine ⟨fun other => ?_, hb.within, hb.entries⟩
  by_cases hs : other = tier
  · subst hs
    have hc : ledger.tierBytes other = total (bytesIn other) ledger.units := by
      simpa using hb.bytes
    refine ⟨hc, ?_, ?_⟩
    · simp [updateResidentTelemetry, OffloadTelemetry.setResidentBytes,
        OffloadTelemetry.setResidentUnits, tierBytes]
    · simp only [updateResidentTelemetry, OffloadTelemetry.setResidentUnits, PerTier.get_set_self]
      exact countP_eq_total _ _
  · obtain ⟨hby, ht, hte⟩ := hb.others other hs
    have hk : ∀ (values : PerTier Nat) (value : Nat),
        (values.set tier value).get other = values.get other := by
      intro values value
      rw [PerTier.get_set, if_neg hs]
    exact ⟨hby, (hk _ _).trans ht, (hk _ _).trans hte⟩

theorem Accounted.charge (ha : Accounted ledger) (tier : MemoryTier)
    (haf : Affordable ledger tier bytes) :
    Balanced tier (bytes - ledger.tierBytes tier) (ledger.setTierBytes tier bytes) := by
  refine ⟨?_, fun other hd => ?_, fun other => ?_, ha.entries⟩
  · have hc := (ha.tiers tier).bytes
    have hw : (ledger.setTierBytes tier bytes).tierBytes tier = bytes := by
      simp [setTierBytes, tierBytes]
    rw [hw, hc]
    show (bytes : Int) = total (bytesIn tier) ledger.units + _
    omega
  · obtain ⟨hc, ht, hte⟩ := ha.tiers other
    have hk : (ledger.setTierBytes tier bytes).tierBytes other = ledger.tierBytes other := by
      simp [setTierBytes, tierBytes, PerTier.get_set, hd]
    exact ⟨hk.trans hc, ht.trans hk.symm, hte⟩
  · by_cases hs : other = tier
    · subst hs
      have hw : (ledger.setTierBytes other bytes).tierBytes other = bytes := by
        simp [setTierBytes, tierBytes]
      rw [hw]
      exact haf.of_plan rfl
    · have hk : (ledger.setTierBytes tier bytes).tierBytes other = ledger.tierBytes other := by
        simp [setTierBytes, tierBytes, PerTier.get_set, hs]
      rw [hk]
      exact (ha.within other).of_plan rfl

/-- Two ledgers that differ in dates only. -/
structure Aged (before after : ResidencyLedger) : Prop where
  plan : after.plan = before.plan
  residentBytes : after.residentBytes = before.residentBytes
  telemetry : after.telemetry = before.telemetry
  units : ∀ id : OffloadUnitId, after.units[id]?.map undated = before.units[id]?.map undated

namespace Aged

variable {before after : ResidencyLedger} (aged : Aged before after)
include aged

theorem total_eq {f : LedgerUnit → Nat} (hu : ∀ unit, f unit.undated = f unit) :
    total f after.units = total f before.units := by
  have hs := total_congr_read f aged.units
  simpa only [hu] using hs

theorem view_eq : after.view = before.view := by
  funext id tier
  have hr : ∀ found : Option LedgerUnit,
      (found.bind fun unit => unit.copy tier).map ownership =
        ((found.map undated).bind fun unit => unit.copy tier).map ownership := by
    rintro (_ | unit)
    · rfl
    · simp only [map_some, bind_some, copy_undated, map_map]
      rfl
  unfold ResidencyLedger.view ResidencyLedger.copy
  rw [hr, aged.units id, ← hr]

/-- The entry of a unit is still there, with its copies up to their dates. -/
theorem listed {id : OffloadUnitId} (hf : before.units[id]? = some unit) :
    ∃ unit', after.units[id]? = some unit' ∧ unit'.undated = unit.undated := by
  have hd := aged.units id
  rw [hf, map_some] at hd
  exact map_eq_some_iff.mp hd

theorem tierAccounted (ha : TierAccounted before tier) : TierAccounted after tier := by
  obtain ⟨hb, ht, hte⟩ := ha
  unfold tierBytes at *
  refine ⟨?_, ?_, ?_⟩
  · rw [tierBytes, aged.residentBytes, hb, aged.total_eq fun unit => unit.bytesIn_undated tier]
  · rw [tierBytes, aged.telemetry, aged.residentBytes, ht]
  · rw [aged.telemetry, hte, aged.total_eq fun unit => unit.residentIn_undated tier]

theorem withinBudget (hw : WithinBudget before) : WithinBudget after := by
  intro tier
  rw [tierBytes, aged.residentBytes]
  exact (hw tier).of_plan aged.plan

theorem entriesJustified (he : EntriesJustified before) : EntriesJustified after := by
  intro id unit hf
  have hd := aged.units id
  rw [hf, map_some] at hd
  obtain ⟨old, hl, hs⟩ := map_eq_some_iff.mp hd.symm
  obtain ⟨hp, hj⟩ := he id old hl
  have hsp : old.spec = unit.spec := congrArg (fun unit => unit.spec) hs
  refine ⟨by rw [aged.plan, hp, hsp], ?_⟩
  rw [aged.plan, ← unit.ownsCopy_undated, ← hs, old.ownsCopy_undated]
  exact hj

theorem accounted (ha : Accounted before) : Accounted after :=
  ⟨fun tier => aged.tierAccounted (ha.tiers tier), aged.withinBudget ha.within,
    aged.entriesJustified ha.entries⟩

theorem balanced {due : Int} (hb : Balanced tier due before) : Balanced tier due after := by
  refine ⟨?_, fun other hd => aged.tierAccounted (hb.others other hd),
    aged.withinBudget hb.within, aged.entriesJustified hb.entries⟩
  rw [tierBytes, aged.residentBytes, aged.total_eq fun unit => unit.bytesIn_undated tier]
  exact hb.bytes

end Aged

theorem undated_halveLastUsed (unit : LedgerUnit) :
    (halveLastUsed unit).undated = unit.undated := by
  cases unit with
  | mk spec host device => cases host <;> cases device <;> rfl

theorem nextTick_yields (ledger : ResidencyLedger) :
    nextTick.Yields ledger (fun _ => Aged ledger) (fun _ _ => False) := by
  unfold nextTick
  simp only [yields_bind, yields_modify]
  split
  · refine ⟨rfl, rfl, rfl, fun id => ?_⟩
    simp only [TreeMap.getElem?_map, map_map]
    congr 1
    funext unit
    exact undated_halveLastUsed unit
  · exact ⟨rfl, rfl, rfl, fun _ => rfl⟩

variable {copy : LedgerCopy} {spec : OffloadUnitSpec}

section Writing

variable {ledger : ResidencyLedger} {id : OffloadUnitId} {unit : LedgerUnit} {tier : MemoryTier}

theorem copy_eq_some (hf : ledger.copy id tier = some copy) :
    tier ≠ .disk ∧ ∃ unit, ledger.units[id]? = some unit ∧ unit.copy tier = some copy := by
  obtain ⟨unit, hl, ho⟩ := bind_eq_some_iff.mp hf
  refine ⟨?_, unit, hl, ho⟩
  rintro rfl
  cases ho

theorem view_setUnit (hr : tier ≠ .disk) (hl : ledger.units[id]? = some unit)
    (copy : Option LedgerCopy) : (ledger.setUnit id (unit.setCopy tier copy)).view =
      View.set ledger.view id tier (copy.map ownership) := by
  funext id' tier'
  unfold view ResidencyLedger.copy setUnit View.set
  simp only [lookup_insert]
  by_cases hs : id' = id
  · subst hs
    simp only [if_true, bind_some, copy_setCopy hr, true_and, hl]
    split <;> rfl
  · simp [hs]

theorem total_setCopy (hr : tier ≠ .disk) (hl : ledger.units[id]? = some unit)
    (copy : Option LedgerCopy) (other : MemoryTier) :
    total (bytesIn other) (ledger.units.insert id (unit.setCopy tier copy)) +
        (if other = tier then unit.bytesIn tier else 0) = total (bytesIn other) ledger.units +
        (if other = tier then copy.elim 0 (·.bytes) else 0) := by
  have hm := total_insert (bytesIn other) (unit.setCopy tier copy) hl
  by_cases hs : other = tier
  · subst hs
    have hw : (unit.setCopy other copy).bytesIn other = copy.elim 0 (·.bytes) := by
      rw [bytesIn, copy_setCopy hr, if_pos rfl]
    simp only [if_true]
    omega
  · have hk : (unit.setCopy tier copy).bytesIn other = unit.bytesIn other := by
      rw [bytesIn, copy_setCopy hr, if_neg hs]
      rfl
    simp only [hs, if_false]
    omega

theorem total_residentIn_setCopy (hr : tier ≠ .disk) (hl : ledger.units[id]? = some unit)
    (copy : Option LedgerCopy) {other : MemoryTier} (hd : other ≠ tier) :
    total (residentIn other) (ledger.units.insert id (unit.setCopy tier copy)) =
      total (residentIn other) ledger.units := by
  have hm := total_insert (residentIn other) (unit.setCopy tier copy) hl
  have hk : (unit.setCopy tier copy).residentIn other = unit.residentIn other := by
    rw [residentIn, copy_setCopy hr, if_neg hd]
    rfl
  omega

theorem entriesJustified_setUnit (he : EntriesJustified ledger) {written : LedgerUnit}
    (hj : EntryJustified ledger.plan id written) :
    EntriesJustified (ledger.setUnit id written) := by
  intro id' unit' hf
  simp only [setUnit, lookup_insert] at hf
  split at hf
  · rename_i hs
    cases hf
    exact hs ▸ hj
  · exact he id' unit' hf

theorem Balanced.setCopy {due due' : Int} (hb : Balanced tier due ledger)
    (hr : tier ≠ .disk) (hl : ledger.units[id]? = some unit) (copy : LedgerCopy)
    (hdi : due + unit.bytesIn tier = due' + copy.bytes) :
    Balanced tier due' (ledger.setUnit id (unit.setCopy tier (some copy))) := by
  have ho : (unit.setCopy tier (some copy)).ownsCopy :=
    ⟨tier, by rw [copy_setCopy hr, if_pos rfl]; rfl⟩
  have hp := (hb.entries id unit hl).1
  refine ⟨?_, fun other hd => ?_, hb.within,
    entriesJustified_setUnit hb.entries ⟨by simpa using hp, .inr ho⟩⟩
  · have hm := total_setCopy hr hl (some copy) tier
    simp only [if_true, elim_some] at hm
    have hby := hb.bytes
    show (ledger.tierBytes tier : Int) = _
    simp only [setUnit]
    omega
  · obtain ⟨hby, ht, hte⟩ := hb.others other hd
    have hm := total_setCopy hr hl (some copy) other
    simp only [hd] at hm
    refine ⟨?_, ht, ?_⟩
    · exact hby.trans hm.symm
    · exact hte.trans (total_residentIn_setCopy hr hl _ hd).symm

theorem Accounted.setCopy {old : LedgerCopy} (ha : Accounted ledger)
    (hl : ledger.units[id]? = some unit) (ho : unit.copy tier = some old)
    (hli : copy.lifecycle = old.lifecycle) (hb : copy.bytes = old.bytes) :
    Accounted (ledger.setUnit id (unit.setCopy tier (some copy))) := by
  have hr : tier ≠ .disk := by
    rintro rfl
    cases ho
  have hsa : ∀ other, (unit.setCopy tier (some copy)).bytesIn other = unit.bytesIn other := by
    intro other
    unfold bytesIn
    rw [copy_setCopy hr]
    split
    · rename_i hse
      rw [hse, ho]
      exact hb
    · rfl
  have hs : ∀ other, (unit.setCopy tier (some copy)).residentIn other = unit.residentIn other := by
    intro other
    unfold residentIn
    rw [copy_setCopy hr]
    split
    · rename_i hse
      rw [hse, ho]
      simp [status, hli]
    · rfl
  refine ⟨fun other => ?_, ha.within, entriesJustified_setUnit ha.entries ?_⟩
  · obtain ⟨hc, ht, hte⟩ := ha.tiers other
    have hm := total_insert (bytesIn other) (unit.setCopy tier (some copy)) hl
    have hmo := total_insert (residentIn other) (unit.setCopy tier (some copy)) hl
    rw [hsa] at hm
    rw [hs] at hmo
    refine ⟨?_, ht, ?_⟩
    · exact hc.trans (by simp only [setUnit]; omega)
    · exact hte.trans (by simp only [setUnit]; omega)
  · refine ⟨by simpa using (ha.entries id unit hl).1, .inr ⟨tier, ?_⟩⟩
    rw [copy_setCopy hr, if_pos rfl]
    rfl

theorem not_ownsCopy_emptyUnit (spec : OffloadUnitSpec) : ¬ (emptyUnit spec).ownsCopy := by
  rintro ⟨tier, hf⟩
  cases tier <;> cases hf

theorem view_setUnit_empty (ha : ledger.units[id]? = none) :
    (ledger.setUnit id (emptyUnit spec)).view = ledger.view := by
  funext id' tier'
  simp only [view, ResidencyLedger.copy, setUnit, lookup_insert]
  split
  · rename_i hs
    rw [hs, ha]
    cases tier' <;> rfl
  · rfl

theorem Balanced.newCopy {due due' : Int} (hb : Balanced tier due ledger)
    (hr : tier ≠ .disk) (ha : ledger.units[id]? = none)
    (hp : ledger.plan.unit id = some spec) (copy : LedgerCopy) (hdi : due = due' + copy.bytes) :
    Balanced tier due' ((ledger.setUnit id (emptyUnit spec)).setUnit id
      ((emptyUnit spec).setCopy tier (some copy))) := by
  have hl : (ledger.setUnit id (emptyUnit spec)).units[id]? = some (emptyUnit spec) := by
    simp [setUnit]
  have hba := not_ownsCopy_emptyUnit spec
  have hc : ∀ f : LedgerUnit → Nat, f (emptyUnit spec) = 0 →
      total f (ledger.setUnit id (emptyUnit spec)).units = total f ledger.units := by
    intro f he
    rw [setUnit, total_insert_absent f _ ha, he, zero_add]
  have ho : ((emptyUnit spec).setCopy tier (some copy)).ownsCopy :=
    ⟨tier, by rw [copy_setCopy hr, if_pos rfl]; rfl⟩
  refine ⟨?_, fun other hd => ?_, hb.within, ?_⟩
  · have hm := total_setCopy hr hl (some copy) tier
    simp only [if_true, elim_some, bytesIn_of_not_ownsCopy hba,
      hc _ (bytesIn_of_not_ownsCopy hba tier)] at hm
    have hby := hb.bytes
    show (ledger.tierBytes tier : Int) =
      total (bytesIn tier) ((ledger.setUnit id (emptyUnit spec)).units.insert id _) + _
    omega
  · obtain ⟨hby, ht, hte⟩ := hb.others other hd
    have hm := total_setCopy hr hl (some copy) other
    simp only [hd, if_false, hc _ (bytesIn_of_not_ownsCopy hba other)] at hm
    have hco := total_residentIn_setCopy hr hl (some copy) hd
    rw [hc _ (residentIn_of_not_ownsCopy hba other)] at hco
    exact ⟨hby.trans hm.symm, ht, hte.trans hco.symm⟩
  · intro id' unit' hf
    simp only [setUnit, lookup_insert] at hf
    split at hf
    · rename_i hs
      cases hf
      exact ⟨by rw [hs, setCopy_spec]; exact hp, .inr ho⟩
    · exact hb.entries id' unit' hf

end Writing

section Removing

variable {ledger : ResidencyLedger} {id : OffloadUnitId} {tier : MemoryTier}

/-- Dropping an entry without copies shows in no total that only counts copies. -/
theorem total_dropEmptyEntry {f : LedgerUnit → Nat} (hb : ∀ unit, ¬ unit.ownsCopy → f unit = 0)
    (id : OffloadUnitId) (ledger : ResidencyLedger) :
    total f (dropEmptyEntry id ledger).units = total f ledger.units := by
  unfold dropEmptyEntry
  split
  · rename_i he
    simp only [Bool.and_eq_true, any_eq_true] at he
    obtain ⟨-, unit, hl, ho⟩ := he
    rw [total_erase f hl, hb unit, zero_add]
    rw [ownsCopy_iff]
    simpa using ho
  · rfl

theorem view_dropEmptyEntry (id : OffloadUnitId) (ledger : ResidencyLedger) :
    (dropEmptyEntry id ledger).view = ledger.view := by
  unfold dropEmptyEntry
  split
  · rename_i he
    simp only [Bool.and_eq_true, any_eq_true, isNone_iff_eq_none] at he
    obtain ⟨-, unit, hl, hh, hd⟩ := he
    funext id' tier'
    simp only [view, ResidencyLedger.copy, lookup_erase]
    split
    · rename_i hs
      rw [hs, hl]
      cases tier' <;> simp [LedgerUnit.copy, hh, hd]
    · rfl
  · rfl

theorem dropEmptyEntry_fields (id : OffloadUnitId) (ledger : ResidencyLedger) :
    (dropEmptyEntry id ledger).plan = ledger.plan ∧
      (dropEmptyEntry id ledger).residentBytes = ledger.residentBytes ∧
      (dropEmptyEntry id ledger).telemetry = ledger.telemetry := by
  unfold dropEmptyEntry
  split <;> exact ⟨rfl, rfl, rfl⟩

/-- Only the entry at hand may lack a justification, and then it is dropped. -/
theorem entriesJustified_dropEmptyEntry
    (hp : ∀ unit, ledger.units[id]? = some unit → ledger.plan.unit id = some unit.spec)
    (ho : ∀ other unit, other ≠ id → ledger.units[other]? = some unit →
      EntryJustified ledger.plan other unit) : EntriesJustified (dropEmptyEntry id ledger) := by
  intro other unit hf
  rw [(dropEmptyEntry_fields id ledger).1]
  unfold dropEmptyEntry at hf
  split at hf
  · simp only [lookup_erase] at hf
    split at hf
    · cases hf
    · rename_i hd
      exact ho other unit hd hf
  · rename_i hk
    by_cases hs : other = id
    · subst hs
      refine ⟨hp unit hf, ?_⟩
      rw [ownsCopy_iff]
      by_contra hn
      apply hk
      rw [not_or, not_not] at hn
      simp [hf, hn.1, hn.2]
    · exact ho other unit hs hf

theorem balanced_withoutCopy (ha : Accounted ledger) (hr : tier ≠ .disk)
    (hl : ledger.units[id]? = some unit) (ho : unit.copy tier = some copy) :
    copy.bytes ≤ ledger.tierBytes tier ∧
      Balanced tier 0 (dropEmptyEntry id ((ledger.setUnit id (unit.setCopy tier none)).setTierBytes
        tier (ledger.tierBytes tier - copy.bytes))) := by
  have hc := (ha.tiers tier).bytes
  have hh : unit.bytesIn tier = copy.bytes := by simp [bytesIn, ho]
  have hco : copy.bytes ≤ ledger.tierBytes tier := by
    rw [hc, ← hh]
    exact value_le_total (bytesIn tier) hl
  refine ⟨hco, ?_⟩
  generalize he : (ledger.setUnit id (unit.setCopy tier none)).setTierBytes tier
    (ledger.tierBytes tier - copy.bytes) = bare
  obtain ⟨hp, hb, hty⟩ := dropEmptyEntry_fields id bare
  have hw : bare.tierBytes tier = ledger.tierBytes tier - copy.bytes := by
    simp [← he, setTierBytes, tierBytes]
  have hk : ∀ other, other ≠ tier → bare.tierBytes other = ledger.tierBytes other := by
    intro other hd
    simp [← he, setTierBytes, tierBytes, setUnit, PerTier.get_set, hd]
  have hu : bare.units = ledger.units.insert id (unit.setCopy tier none) := by
    rw [← he]
    rfl
  have hsa : bare.plan = ledger.plan := by
    rw [← he]
    rfl
  have hs : bare.telemetry = ledger.telemetry := by
    rw [← he]
    rfl
  refine ⟨?_, fun other hd => ?_, fun other => ?_, ?_⟩
  · have hm := total_setCopy hr hl none tier
    simp only [if_true, elim_none] at hm
    rw [total_dropEmptyEntry fun unit bare => bytesIn_of_not_ownsCopy bare tier, tierBytes, hb, hu]
    change (bare.tierBytes tier : Int) = _
    omega
  · obtain ⟨hc, ht, hte⟩ := ha.tiers other
    have hm := total_setCopy hr hl none other
    simp only [hd, if_false, add_zero] at hm
    have hse : (dropEmptyEntry id bare).tierBytes other = ledger.tierBytes other := by
      rw [tierBytes, hb]
      exact hk other hd
    refine ⟨?_, ?_, ?_⟩
    · rw [hse, hc, total_dropEmptyEntry fun unit bare => bytesIn_of_not_ownsCopy bare other, hu, hm]
    · rw [hty, hs, hse, ht]
    · rw [hty, hs, hte, total_dropEmptyEntry fun unit bare =>
        residentIn_of_not_ownsCopy bare other, hu,
        total_residentIn_setCopy hr hl none hd]
  · have hfe : (dropEmptyEntry id bare).tierBytes other ≤ ledger.tierBytes other := by
      rw [tierBytes, hb]
      change bare.tierBytes other ≤ ledger.tierBytes other
      by_cases hs2 : other = tier
      · subst hs2
        omega
      · exact (hk other hs2).le
    exact ((ha.within other).mono hfe).of_plan (hp.trans hsa)
  · apply entriesJustified_dropEmptyEntry
    · intro entry hf
      rw [hu, lookup_insert, if_pos rfl] at hf
      cases hf
      rw [hsa, setCopy_spec]
      exact (ha.entries id unit hl).1
    · intro other entry hd hf
      rw [hu, lookup_insert, if_neg hd] at hf
      rw [hsa]
      exact ha.entries other entry hf

theorem removeCopy_yields (ha : Accounted ledger) (hf : ledger.copy id tier = some copy)
    (recordEviction : Bool) : (removeCopy id tier recordEviction).Yields ledger
      (fun evicted after => Accounted after ∧ after.plan = ledger.plan ∧
        after.view = View.set ledger.view id tier none ∧
        after.tierBytes tier + copy.bytes = ledger.tierBytes tier ∧
        evicted = ⟨id, tier, copy.bytes⟩) (fun _ _ => False) := by
  obtain ⟨hr, unit, hl, ho⟩ := copy_eq_some hf
  obtain ⟨hco, hb⟩ := balanced_withoutCopy ha hr hl ho
  unfold removeCopy takeCopy
  simp only [yields_bind, yields_get, hl, ho, yields_set, yields_pure]
  have hsu : Word.checkedSub ((ledger.setUnit id (unit.setCopy tier none)).tierBytes tier)
      copy.bytes = some (ledger.tierBytes tier - copy.bytes) :=
    Word.checkedSub_eq_some.mpr ⟨hco, rfl⟩
  simp only [hsu, yields_bind, yields_modify]
  generalize he : (ledger.setUnit id (unit.setCopy tier none)).setTierBytes tier
    (ledger.tierBytes tier - copy.bytes) = bare at hb ⊢
  obtain ⟨hp, hby, ht⟩ := dropEmptyEntry_fields id bare
  have hs : Accounted ((dropEmptyEntry id bare).updateResidentTelemetry tier) := hb.settle
  have hv : (dropEmptyEntry id bare).view = View.set ledger.view id tier none := by
    rw [view_dropEmptyEntry, ← he]
    exact view_setUnit hr hl none
  have hc : (dropEmptyEntry id bare).tierBytes tier + copy.bytes = ledger.tierBytes tier := by
    rw [tierBytes, hby, ← he]
    simp only [setTierBytes, PerTier.get_set_self]
    omega
  have hsa : (dropEmptyEntry id bare).plan = ledger.plan := by
    rw [hp, ← he]
    rfl
  cases recordEviction with
  | true =>
    exact ⟨⟨fun other => ⟨(hs.tiers other).bytes, (hs.tiers other).telemetryBytes,
      (hs.tiers other).telemetryUnits⟩, hs.within, hs.entries⟩, hsa, hv, hc, rfl⟩
  | false => exact ⟨hs, hsa, hv, hc, rfl⟩

end Removing

end Eredu.Residency
