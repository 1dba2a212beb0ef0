import Eredu.Residency.Reservation

/-!
# What the calls of the ledger do

Every call leaves the ledger accounted. A call that fails leaves the view as it
was and blames the caller, and a call that returns moves each copy as
`CopyMoves` says.
-/

namespace Eredu.Residency

open Std Effect ResidencyLedger Nat Option List Word View

def CallerFault : Fault ResidencyLedgerError → Prop
  | .error cause => CallerError cause
  | .panic _ => False

/-- The call returns and leaves a view in `becomes`, or it fails and changes nothing. -/
def Settles {α : Type} (m : LedgerM α) (ledger : ResidencyLedger) (becomes : α → View → Prop) :
    Prop :=
  m.Yields ledger
    (fun value after => Accounted after ∧ after.plan = ledger.plan ∧ becomes value after.view)
    (fun fault after => Accounted after ∧ after.plan = ledger.plan ∧ after.view = ledger.view ∧
      CallerFault fault)

variable {ledger : ResidencyLedger} {α : Type} {becomes : α → View → Prop}

theorem settles_check {β : Type} {passes : Prop} {result : Except ResidencyLedgerError β}
    {next : β → LedgerM α} (accounted : Accounted ledger) (hd : Decides result passes)
    (hc : ∀ value, passes → Settles (next value) ledger becomes) :
    Settles (.ofResult result >>= next) ledger becomes :=
  .bind (yields_of_concludes hd hc fun _ hf => ⟨accounted, rfl, rfl, hf.1.blames.1⟩)

theorem settles_get {next : ResidencyLedger → LedgerM α}
    (hc : Settles (next ledger) ledger becomes) : Settles (get >>= next) ledger becomes := by
  exact hc

theorem settles_pure {value : α} (accounted : Accounted ledger) (hh : becomes value ledger.view) :
    Settles (pure value) ledger becomes :=
  ⟨accounted, rfl, hh⟩

theorem settles_fail {cause : ResidencyLedgerError} (accounted : Accounted ledger)
    (hb : CallerError cause) : Settles (fail cause : LedgerM α) ledger becomes :=
  ⟨accounted, rfl, rfl, hb⟩

theorem settles_nextTick {next : Nat → LedgerM α}
    (hc : ∀ tick after, Aged ledger after → Settles (next tick) after becomes) :
    Settles (nextTick >>= next) ledger becomes := by
  unfold Settles
  rw [yields_bind]
  refine (nextTick_yields ledger).mono (fun tick after ha => ?_) fun _ _ hi => hi.elim
  have hs := hc tick after ha
  unfold Settles at hs
  rwa [ha.plan, ha.view_eq] at hs

section OneCopy

variable {ledger : ResidencyLedger} (accounted : Accounted ledger) (id : OffloadUnitId)
  (tier : MemoryTier)

include accounted

theorem nextTransferGeneration_settles :
    Settles nextTransferGeneration ledger fun _ view => view = ledger.view := by
  apply settles_get
  cases checkedAdd ledger.nextTransferGeneration 1 with
  | none => exact settles_fail accounted trivial
  | some next =>
    exact ⟨⟨fun tier => ⟨(accounted.tiers tier).bytes, (accounted.tiers tier).telemetryBytes,
      (accounted.tiers tier).telemetryUnits⟩, accounted.within, accounted.entries⟩, rfl, rfl⟩

theorem unpin_yields : (unpin id tier).Yields ledger
      (fun _ after => Accounted after ∧ after.plan = ledger.plan ∧
        ((ledger.view id tier = none ∧ after.view = ledger.view) ∨
          ∃ owned, ledger.view id tier = some owned ∧
            after.view = set ledger.view id tier (some { owned with pins := owned.pins - 1 })))
      (fun _ _ => False) := by
  unfold unpin
  rw [yields_bind, yields_get]
  cases hl : ledger.units[id]? with
  | none => exact ⟨accounted, rfl, .inl ⟨by simp [view, copy, hl], rfl⟩⟩
  | some unit =>
    cases owned : unit.copy tier with
    | none =>
      simp only [owned]
      exact ⟨accounted, rfl, .inl ⟨by simp [view, copy, hl, owned], rfl⟩⟩
    | some copy =>
      simp only [owned]
      have hr : tier ≠ .disk := by
        rintro rfl
        cases owned
      refine ⟨accounted.setCopy hl owned rfl rfl, rfl,
        .inr ⟨copy.ownership, view_of_listed id tier hl owned, ?_⟩⟩
      exact view_setUnit hr hl _

theorem unpin_settles : Settles (unpin id tier) ledger fun _ view =>
      (ledger.view id tier = none ∧ view = ledger.view) ∨
        ∃ owned, ledger.view id tier = some owned ∧
          view = set ledger.view id tier (some { owned with pins := owned.pins - 1 }) :=
  (unpin_yields accounted id tier).mono (fun _ _ hl => hl) fun _ _ hi => hi.elim

theorem touch_settles : Settles (touch id tier) ledger fun _ view => view = ledger.view := by
  refine settles_check accounted (validateLedgerTier_decides tier _) fun _ hr => ?_
  apply settles_nextTick
  intro tick after ha
  have accounted := ha.accounted accounted
  apply settles_get
  cases hl : after.units[id]? with
  | none => exact settles_fail accounted trivial
  | some unit =>
    cases ho : unit.copy tier with
    | none =>
      simp only [ho]
      exact settles_fail accounted (by simp [CallerError, inconsistent, callerOperations])
    | some copy =>
      simp only [ho]
      split
      · exact settles_fail accounted (by simp [CallerError, inconsistent, callerOperations])
      · refine ⟨accounted.setCopy hl ho rfl rfl, rfl, ?_⟩
        rw [view_setUnit hr hl, ← ha.view_eq]
        funext id' tier'
        unfold View.set
        split
        · rename_i hs
          rw [hs.1, hs.2, view_of_listed id tier hl ho]
          rfl
        · rfl

theorem pin_settles (demand : Nat) : Settles (pin id tier demand) ledger fun _ view =>
      ∃ owned, ledger.view id tier = some owned ∧ owned.lifecycle = .resident ∧
        view = set ledger.view id tier (some { owned with pins := owned.pins + 1 }) := by
  refine settles_check accounted (validateLedgerTier_decides tier _) fun _ hr => ?_
  apply settles_nextTick
  intro tick after ha
  have accounted := ha.accounted accounted
  rw [← ha.view_eq]
  apply settles_get
  cases hl : after.units[id]? with
  | none => exact settles_fail accounted trivial
  | some unit =>
    cases owned : unit.copy tier with
    | none =>
      simp only [owned]
      exact settles_fail accounted (by simp [CallerError, inconsistent, callerOperations])
    | some copy =>
      simp only [owned]
      split
      · exact settles_fail accounted (by simp [CallerError, inconsistent, callerOperations])
      · rename_i hp
        cases hco : checkedAdd copy.pins 1 with
        | none => exact settles_fail accounted trivial
        | some pins =>
          obtain ⟨rfl, -⟩ := checkedAdd_eq_some.mp hco
          refine ⟨accounted.setCopy hl owned rfl rfl, rfl, copy.ownership,
            view_of_listed id tier hl owned, not_not.mp hp, ?_⟩
          exact view_setUnit hr hl _

theorem evict_settles : Settles (evict id tier) ledger fun _ view => view = ledger.view ∨
      ∃ owned, ledger.view id tier = some owned ∧ owned.lifecycle = .resident ∧ owned.pins = 0 ∧
        view = set ledger.view id tier none := by
  unfold evict
  refine settles_check accounted (validateLedgerTier_decides tier _) fun _ _ => ?_
  apply settles_get
  refine settles_check accounted (spec_decides accounted.entries id) fun _ _ => ?_
  cases hl : ledger.units[id]? with
  | none => exact settles_pure accounted (.inl rfl)
  | some unit =>
    cases owned : unit.copy tier with
    | none =>
      simp only [owned]
      exact settles_pure accounted (.inl rfl)
    | some copy =>
      simp only [owned, bind_some]
      cases hs : copy.status with
      | none => exact settles_pure accounted (.inl rfl)
      | some status =>
        simp only
        unfold LedgerCopy.status at hs
        split at hs
        · rename_i hp
          cases hs
          split
          · exact settles_fail accounted trivial
          split
          · exact settles_fail accounted trivial
          rename_i hu
          have hfo : ledger.copy id tier = some copy := by
            simp [ResidencyLedger.copy, hl, owned]
          have hr := removeCopy_yields accounted hfo true
          unfold Settles
          rw [map_eq_pure_bind, yields_bind]
          refine hr.mono (fun _ after hle => ?_) fun _ _ hi => hi.elim
          obtain ⟨ha', hpl, view, -⟩ := hle
          exact ⟨ha', hpl, .inr ⟨copy.ownership,
            view_of_listed id tier hl owned, hp, not_not.mp hu, view⟩⟩
        · cases hs

theorem rollbackReserved_settles :
    Settles (rollbackReserved id tier) ledger fun _ view => view = ledger.view ∨
      ∃ owned, ledger.view id tier = some owned ∧ owned.lifecycle = .reserved ∧
        view = set ledger.view id tier none := by
  refine settles_check accounted (validateLedgerTier_decides tier _) fun _ _ => ?_
  apply settles_get
  cases hf : ledger.copy id tier with
  | none => exact settles_pure accounted (.inl rfl)
  | some copy =>
    simp only
    split
    · exact settles_pure accounted (.inl rfl)
    rename_i hu
    have hr := removeCopy_yields accounted hf false
    unfold Settles
    rw [show discard (removeCopy id tier false) = removeCopy id tier false >>= fun _ => pure ()
      from rfl, yields_bind]
    refine hr.mono (fun _ after hl => ?_) fun _ _ hi => hi.elim
    obtain ⟨ha', hp, view, -⟩ := hl
    exact ⟨ha', hp, .inr ⟨copy.ownership, by simp [ResidencyLedger.view, hf],
      not_not.mp hu, view⟩⟩

theorem publishReserved_settles (actualBytes : Nat) (inFlight : Option Nat) :
    Settles (publishReserved id tier actualBytes inFlight) ledger fun _ view =>
      ∃ owned, ledger.view id tier = some owned ∧ owned.lifecycle = .reserved ∧
        view = set ledger.view id tier (some ⟨.resident, actualBytes, 0, inFlight⟩) := by
  unfold publishReserved
  refine settles_check accounted (validateLedgerTier_decides tier _) fun _ hr => ?_
  apply settles_get
  cases hfo : ledger.copy id tier with
  | none => exact settles_fail accounted (by simp [CallerError, inconsistent, callerOperations])
  | some reserved =>
    simp only
    split
    · exact settles_fail accounted (by simp [CallerError, inconsistent, callerOperations])
    rename_i hu
    split
    · exact settles_fail accounted trivial
    split
    · exact settles_fail accounted trivial
    rename_i hfi
    obtain ⟨-, unit, hl, owned⟩ := copy_eq_some hfo
    obtain ⟨hc, -⟩ := balanced_withoutCopy accounted hr hl owned
    -- The adjusted charge is at most the present one, so it neither underflows nor overflows.
    have had : (checkedSub (ledger.tierBytes tier) reserved.bytes).bind (fun bytes =>
        checkedAdd bytes actualBytes) =
          some (ledger.tierBytes tier - reserved.bytes + actualBytes) := by
      rw [checkedSub_eq_some.mpr ⟨hc, rfl⟩, bind_some]
      exact checkedAdd_eq_some.mpr ⟨rfl, by have := (accounted.within tier).1; omega⟩
    simp only [had]
    have hcr : ledger.tierBytes tier - reserved.bytes + actualBytes ≤ ledger.tierBytes tier := by
      omega
    have hb := accounted.charge tier ((accounted.within tier).mono hcr)
    unfold Settles
    simp only [yields_bind, yields_modify]
    refine (nextTick_yields _).mono (fun tick after ha => ?_) fun _ _ hi => hi.elim
    obtain ⟨unit', hl', hun⟩ := ha.listed hl
    have hh : unit'.bytesIn tier = reserved.bytes := by
      rw [← unit'.bytesIn_undated, hun, unit.bytesIn_undated]
      simp [LedgerUnit.bytesIn, owned]
    have hp : (unit'.copy tier).isNone = false := by
      have hco := congrArg (fun unit => (unit.copy tier).isNone) hun
      simpa [LedgerUnit.copy_undated, owned] using hco
    simp only [yields_get, hl', hp, Bool.false_eq_true, if_false, yields_set]
    refine ⟨Balanced.settle ((ha.balanced hb).setCopy hr hl' _ ?_), ha.plan,
      reserved.ownership, view_of_listed id tier hl owned, not_not.mp hu, ?_⟩
    · rw [hh]
      push_cast [hc]
      ring
    · have view := view_setUnit hr hl' (some ⟨.resident, actualBytes, 0, tick, 0, inFlight⟩)
      rw [ha.view_eq] at view
      exact view

theorem setGroupWindow_settles (group : String) (active : List OffloadUnitId) :
    Settles (setGroupWindow group active tier) ledger fun _ view => view = ledger.view := by
  refine settles_check accounted (validateLedgerTier_decides tier _) fun _ _ => ?_
  split
  · exact settles_fail accounted trivial
  apply settles_get
  refine settles_check accounted (validateBatch_decides accounted.entries _ tier) fun _ _ => ?_
  exact ⟨⟨fun tier => ⟨(accounted.tiers tier).bytes, (accounted.tiers tier).telemetryBytes,
    (accounted.tiers tier).telemetryUnits⟩, accounted.within, accounted.entries⟩, rfl, rfl⟩

end OneCopy

/-- The copies of a transfer arrive or are removed; all others stay. -/
def Resolves (tier : MemoryTier) (before after : View) : Prop :=
  ∀ id tier', after id tier' = before id tier' ∨ tier' = tier ∧ ∃ owned,
    before id tier' = some owned ∧ owned.lifecycle = .resident ∧
      (after id tier' = none ∨ after id tier' = some { owned with inFlight := none })

theorem Resolves.trans {tier : MemoryTier} {first second third : View}
    (he : Resolves tier first second) (hl : Resolves tier second third) :
    Resolves tier first third := by
  intro id tier'
  rcases he id tier' with hs | ⟨hh, owned, hf, hre, hr | ha⟩
  · rw [← hs]
    exact hl id tier'
  · rcases hl id tier' with hs | ⟨-, owned', hf', -⟩
    · exact .inr ⟨hh, owned, hf, hre, .inl (hs.trans hr)⟩
    · rw [hr] at hf'
      cases hf'
  · refine .inr ⟨hh, owned, hf, hre, ?_⟩
    rcases hl id tier' with hs | ⟨-, owned', hf', -, hr | ha'⟩
    · exact .inr (hs.trans ha)
    · exact .inl hr
    · rw [ha] at hf'
      cases hf'
      exact .inr ha'

theorem resolveUnit_yields (accounted : Accounted ledger) (tier : MemoryTier) (generation : Nat)
    (succeeded : Bool) (id : OffloadUnitId) :
    (resolveUnit tier generation succeeded id).Yields ledger
      (fun _ after => Accounted after ∧ after.plan = ledger.plan ∧
        Resolves tier ledger.view after.view) (fun _ _ => False) := by
  have hu : Resolves tier ledger.view ledger.view := fun _ _ => .inl rfl
  unfold resolveUnit
  rw [yields_bind, yields_get]
  cases hl : ledger.units[id]? with
  | none => exact ⟨accounted, rfl, hu⟩
  | some unit =>
    cases ho : unit.copy tier with
    | none =>
      simp only [ho]
      exact ⟨accounted, rfl, hu⟩
    | some copy =>
      simp only [ho]
      have hr : tier ≠ .disk := by
        rintro rfl
        cases ho
      have hsh := view_of_listed id tier hl ho
      split
      · rename_i hs
        split
        · simp only [yields_bind]
          refine ⟨accounted.setCopy hl ho rfl rfl, rfl, fun id' tier' => ?_⟩
          rw [view_setUnit hr hl, View.set]
          split
          · rename_i hsa
            rw [hsa.1, hsa.2]
            exact .inr ⟨rfl, copy.ownership, hsh, hs.1, .inr rfl⟩
          · exact .inl rfl
        · have hf : ledger.copy id tier = some copy := by
            simp [ResidencyLedger.copy, hl, ho]
          rw [map_eq_pure_bind, yields_bind]
          refine (removeCopy_yields accounted hf false).mono (fun _ after hle => ?_)
            fun _ _ hi => hi
          obtain ⟨ha', hp, hv, -⟩ := hle
          refine ⟨ha', hp, fun id' tier' => ?_⟩
          rw [hv, View.set]
          split
          · rename_i hsa
            rw [hsa.1, hsa.2]
            exact .inr ⟨rfl, copy.ownership, hsh, hs.1, .inl rfl⟩
          · exact .inl rfl
      · exact ⟨accounted, rfl, hu⟩

theorem resolveTransfer_settles (accounted : Accounted ledger) (ids : List OffloadUnitId)
    (tier : MemoryTier) (generation : Nat) (succeeded : Bool) :
    Settles (resolveTransfer ids tier generation succeeded) ledger fun _ view =>
      Resolves tier ledger.view view := by
  refine settles_check accounted (validateLedgerTier_decides tier _) fun _ _ => ?_
  apply settles_get
  refine settles_check accounted (validateBatch_decides accounted.entries _ tier) fun _ _ => ?_
  have he : ∀ (id : OffloadUnitId) (state : ResidencyLedger),
      (Accounted state ∧ state.plan = ledger.plan ∧ Resolves tier ledger.view state.view) →
      (resolveUnit tier generation succeeded id).Yields state
        (fun _ after => Accounted after ∧ after.plan = ledger.plan ∧
          Resolves tier ledger.view after.view) (fun _ _ => False) := by
    rintro id state ⟨ha', hp, hr⟩
    refine (resolveUnit_yields ha' tier generation succeeded id).mono
      (fun _ after hl => ?_) fun _ _ hi => hi
    exact ⟨hl.1, hl.2.1.trans hp, hr.trans hl.2.2⟩
  unfold Settles
  rw [yields_bind]
  exact (yields_mapM he ⟨accounted, rfl, fun _ _ => .inl rfl⟩).mono
    (fun _ _ => id) fun _ _ hi => hi.elim

/-- A batch reservation evicts copies without pins and turns missing copies into reservations. -/
def Admitted (tier : MemoryTier) (before after : View) : Prop :=
  ∀ id tier', after id tier' = before id tier' ∨
    tier' = tier ∧ (Evictable before tier id ∧ after id tier' = none ∨
      before id tier' = none ∧ ∃ bytes, after id tier' = some ⟨.reserved, bytes, 0, none⟩)

theorem reserveCopies_settles {tier : MemoryTier} (accounted : Accounted ledger)
    (requests : List (OffloadUnitId × Nat)) (protectedIds : TreeSet OffloadUnitId) :
    Settles (reserveCopies requests tier protectedIds) ledger fun _ view =>
      Admitted tier ledger.view view := by
  obtain ⟨order, ho, hd, hc⟩ := exists_evictionOrder accounted.entries tier protectedIds
  refine (reserveCopies_yields accounted hc hd ho.evictable requests).mono ?_ ?_
  · rintro _ after ⟨ha, hp, -, count, -, hr, -⟩
    refine ⟨ha, hp, fun id tier' => ?_⟩
    by_cases hs : tier' = tier ∧ (id ∈ (order.map (·.id)).take count ∨ id ∈ requests.map (·.1))
    · obtain ⟨rfl, hv | hq⟩ := hs
      · exact .inr ⟨rfl, .inl ⟨ho.evictable id (mem_of_mem_take hv), hr.released id hv⟩⟩
      · obtain ⟨request, hl, rfl⟩ := mem_map.mp hq
        exact .inr ⟨rfl, .inr ⟨hr.requested.absent request hl, _, hr.reserved request hl⟩⟩
    · exact .inl (hr.kept id tier' fun hh => not_or.mp fun hn => hs ⟨hh, hn⟩)
  · rintro _ _ ⟨rfl, cause, rfl, hca, -⟩
    exact ⟨accounted, rfl, rfl, hca⟩

def LedgerCall.Moves (before after : View) : LedgerCall → Prop
  | .reserveCopies _ tier _ => Admitted tier before after
  | .publishReserved id tier actualBytes inFlight =>
      ∃ owned, before id tier = some owned ∧ owned.lifecycle = .reserved ∧
        after = set before id tier (some ⟨.resident, actualBytes, 0, inFlight⟩)
  | .rollbackReserved id tier => after = before ∨
      ∃ owned, before id tier = some owned ∧ owned.lifecycle = .reserved ∧
        after = set before id tier none
  | .resolveTransfer _ tier _ _ => Resolves tier before after
  | .pin id tier _ =>
      ∃ owned, before id tier = some owned ∧ owned.lifecycle = .resident ∧
        after = set before id tier (some { owned with pins := owned.pins + 1 })
  | .unpin id tier =>
      (before id tier = none ∧ after = before) ∨
        ∃ owned, before id tier = some owned ∧
          after = set before id tier (some { owned with pins := owned.pins - 1 })
  | .evict id tier => after = before ∨
      ∃ owned, before id tier = some owned ∧ owned.lifecycle = .resident ∧ owned.pins = 0 ∧
        after = set before id tier none
  | .nextTransferGeneration | .touch _ _ | .setGroupWindow _ _ _ => after = before

theorem settles_discard {m : LedgerM α} {moves : View → Prop}
    (hs : Settles m ledger fun _ => moves) : Settles (discard m) ledger fun _ => moves := by
  have hi : discard m = m >>= fun _ => pure () := rfl
  unfold Settles
  rw [hi, yields_bind]
  exact hs

theorem perform_settles (accounted : Accounted ledger) (call : LedgerCall) :
    Settles call.perform ledger fun _ view => call.Moves ledger.view view := by
  cases call with
  | reserveCopies requests tier protectedIds =>
    exact settles_discard (reserveCopies_settles accounted requests protectedIds)
  | publishReserved id tier actualBytes inFlight =>
    exact publishReserved_settles accounted id tier actualBytes inFlight
  | rollbackReserved id tier => exact rollbackReserved_settles accounted id tier
  | nextTransferGeneration => exact settles_discard (nextTransferGeneration_settles accounted)
  | resolveTransfer ids tier generation succeeded =>
    exact settles_discard (resolveTransfer_settles accounted ids tier generation succeeded)
  | pin id tier demand => exact settles_discard (pin_settles accounted id tier demand)
  | unpin id tier => exact unpin_settles accounted id tier
  | touch id tier => exact touch_settles accounted id tier
  | setGroupWindow group active tier => exact setGroupWindow_settles accounted tier group active
  | evict id tier => exact settles_discard (evict_settles accounted id tier)

variable {id : OffloadUnitId} {specs : List OffloadUnitSpec} {unit : LedgerUnit}

theorem insertUnits_lookup {units : TreeMap OffloadUnitId LedgerUnit}
    (hf : (specs.foldl (fun units spec => units.insert spec.id (emptyUnit spec)) units)[id]? =
      some unit) :
    (∃ spec ∈ specs, spec.id = id ∧ unit = emptyUnit spec) ∨ units[id]? = some unit := by
  induction specs generalizing units with
  | nil => exact .inr hf
  | cons spec rest ih =>
    rcases ih hf with ⟨later, hl, hn, hm⟩ | he
    · exact .inl ⟨later, mem_cons_of_mem _ hl, hn, hm⟩
    · rw [lookup_insert] at he
      split at he
      · rename_i hs
        cases he
        exact .inl ⟨spec, mem_cons_self, hs.symm, rfl⟩
      · exact .inr he

/-- The explicit units are told apart by their identities. -/
theorem find?_of_ordered {spec : OffloadUnitSpec}
    (ho : specs.Pairwise fun left right => compare left.id right.id = .lt)
    (hl : spec ∈ specs) : (specs.find? fun unit => unit.id = spec.id) = some spec := by
  induction specs with
  | nil => cases hl
  | cons first rest ih =>
    obtain ⟨hb, ho'⟩ := pairwise_cons.mp ho
    rcases mem_cons.mp hl with rfl | hla
    · simp
    · have hd : first.id ≠ spec.id := by
        intro hs
        have hle := hb spec hla
        simp [hs] at hle
      rw [find?_cons_of_neg (by simpa using hd)]
      exact ih ho' hla

variable {plan : OffloadPlan}

theorem new_lookup (hf : (new plan).units[id]? = some unit) :
    ∃ spec, plan.explicit id = some spec ∧ unit = emptyUnit spec := by
  rcases insertUnits_lookup hf with ⟨spec, hl, rfl, hm⟩ | hn
  · exact ⟨spec, find?_of_ordered plan.ordered hl, hm⟩
  · simp at hn

theorem new_accounted (plan : OffloadPlan) : Accounted (new plan) := by
  have hb : ∀ (id : OffloadUnitId) (unit : LedgerUnit),
      (new plan).units[id]? = some unit → ¬ unit.ownsCopy := by
    intro id unit hf
    obtain ⟨spec, -, rfl⟩ := new_lookup hf
    exact not_ownsCopy_emptyUnit spec
  have hem : ∀ tier, (new plan).tierBytes tier = 0 := by
    intro tier
    cases tier <;> rfl
  refine ⟨fun tier => ⟨?_, ?_, ?_⟩, fun tier => ?_, fun id unit hf => ?_⟩
  · rw [hem, total_eq_zero fun id unit hf =>
      LedgerUnit.bytesIn_of_not_ownsCopy (hb id unit hf) tier]
  · cases tier <;> rfl
  · rw [total_eq_zero fun id unit hf => LedgerUnit.residentIn_of_not_ownsCopy (hb id unit hf) tier]
    cases tier <;> rfl
  · rw [hem]
    exact ⟨zero_le _, fun _ _ => zero_le _⟩
  · obtain ⟨spec, he, rfl⟩ := new_lookup hf
    refine ⟨?_, .inl ?_⟩
    · show plan.unit id = some spec
      rw [OffloadPlan.unit, he]
      rfl
    · show plan.isExplicit id = true
      rw [OffloadPlan.isExplicit, he]
      rfl

theorem Reachable.accounted (hr : Reachable plan ledger) :
    Accounted ledger ∧ ledger.plan = plan := by
  induction hr with
  | new => exact ⟨new_accounted plan, rfl⟩
  | call hb call ih =>
    obtain ⟨accounted, hp⟩ := ih
    exact ((perform_settles accounted call).mono
      (fun _ after hs => (⟨hs.1, hs.2.1.trans hp⟩ : Accounted after ∧ after.plan = plan))
      fun _ _ hs => ⟨hs.1, hs.2.1.trans hp⟩).final

theorem Accounted.rangeMember_listed (accounted : Accounted ledger)
    (hr : ledger.plan.IsRangeMember id) :
    ledger.units[id]?.isSome ↔ ∃ tier, (ledger.copy id tier).isSome := by
  constructor
  · intro hl
    obtain ⟨unit, hf⟩ := isSome_iff_exists.mp hl
    rcases (accounted.entries id unit hf).2 with he | ⟨tier, ho⟩
    · rw [OffloadPlan.isExplicit_of_isRangeMember hr] at he
      cases he
    · exact ⟨tier, by simpa [copy, hf] using ho⟩
  · rintro ⟨tier, ho⟩
    unfold copy at ho
    cases hf : ledger.units[id]? with
    | none => simp [hf] at ho
    | some unit => rfl

/-- The accounts of every reachable ledger are right, and no call on it finds them broken: an
inconsistent state is only ever reported for a copy that the caller names in the wrong lifecycle. -/
theorem residency_accounted {plan : OffloadPlan} {ledger : ResidencyLedger}
    (reachable : Reachable plan ledger) : ledger.plan = plan ∧
    (∀ tier, ledger.tierBytes tier = total (LedgerUnit.bytesIn tier) ledger.units ∧
      (∀ budget, ledger.budget tier = some budget → ledger.tierBytes tier ≤ budget) ∧
      ledger.telemetry.residentBytes.get tier = ledger.tierBytes tier ∧
      ledger.telemetry.residentUnits.get tier = total (LedgerUnit.residentIn tier) ledger.units) ∧
    (∀ id, plan.IsRangeMember id →
      (ledger.units[id]?.isSome ↔ ∃ tier, (ledger.copy id tier).isSome)) ∧
    ∀ (call : LedgerCall) (fault : Fault ResidencyLedgerError),
      (call.perform.outcome ledger).1 = .error fault → CallerFault fault := by
  obtain ⟨accounted, hp⟩ := reachable.accounted
  refine ⟨hp, fun tier => ?_, fun id hra => ?_, fun call fault hf => ?_⟩
  · obtain ⟨hb, ht, hte⟩ := accounted.tiers tier
    exact ⟨hb, (accounted.within tier).2, ht, hte⟩
  · exact accounted.rangeMember_listed (hp ▸ hra)
  · have hs := perform_settles accounted call
    unfold Settles Yields at hs
    split at hs
    · rename_i hr
      rw [hr] at hf
      cases hf
    · rename_i hst
      rw [hst] at hf
      cases hf
      exact hs.2.2.2

def rowsPlan : OffloadPlan where
  config := { deviceBudgetBytes := some 16, hostBudgetBytes := none, prefetchDepth := 1,
              evictionPolicy := .leastRecentlyUsed, lookahead := by decide }
  units := [⟨⟨"edge"⟩, 8, .windowed, .disk, by decide, by decide⟩]
  ranges := [{ idPrefix := ⟨"rows"⟩, start := 0, frontier := 4, bytes := 8, policy := .cacheable,
               nonempty := by decide, sized := by decide, evictable := by decide,
               representable := by decide }]
  plannedBytes := ⟨0, 0, 40⟩
  ordered := by simp
  apart := by decide

def reservedRows : ResidencyLedger :=
  (LedgerCall.reserveCopies [(⟨"rows.0"⟩, 8), (⟨"rows.1"⟩, 8)] .device ∅).perform.final (.new rowsPlan)

theorem residency_accounted_rows : reservedRows.tierBytes .device = 16 ∧
      total (LedgerUnit.bytesIn .device) reservedRows.units = 16 ∧
      (reservedRows.units[(⟨"rows.1"⟩ : OffloadUnitId)]?.isSome ↔
        ∃ tier, (reservedRows.copy ⟨"rows.1"⟩ tier).isSome) := by
  have ha := residency_accounted (Reachable.call (@Reachable.new rowsPlan)
    (.reserveCopies [(⟨"rows.0"⟩, 8), (⟨"rows.1"⟩, 8)] .device ∅))
  have hc : reservedRows.tierBytes .device = 16 := by decide +kernel
  refine ⟨hc, (ha.2.1 .device).1.symm.trans hc, ha.2.2.1 ⟨"rows.1"⟩ ?_⟩
  exact ⟨_, mem_singleton_self _, by decide +kernel⟩

/-- A reservation that fails leaves the ledger as it was. One that succeeds evicts the shortest prefix
of the copies that may go, in their order, that makes room, and reserves every request at its size.
It runs short exactly when a batch that passes its checks, in words that can be added up, finds no
room even if all these copies go. -/
theorem reservation_evicts_least (reachable : Reachable plan ledger)
    (requests : List (OffloadUnitId × Nat)) (tier : MemoryTier)
    (protectedIds : TreeSet OffloadUnitId) : ∃ order, EvictionOrder ledger tier protectedIds order ∧
      (reserveCopies requests tier protectedIds).Yields ledger (fun evicted after => ∃ count,
          Shortest ledger tier (requests.map (·.2)).sum (order.map (·.id)) count ∧
          Reserved ledger tier requests ((order.map (·.id)).take count) after.view ∧
          evicted = ((order.map (·.id)).take count).map
            fun id => ⟨id, tier, bytes ledger.view tier id⟩) (fun _ after => after = ledger) ∧
      ((∃ cause, Exhausted cause ∧
          ((reserveCopies requests tier protectedIds).outcome ledger).1 = .error (.error cause)) ↔
        Short ledger tier requests (order.map (·.id))) := by
  obtain ⟨accounted, -⟩ := reachable.accounted
  obtain ⟨order, ho, hd, hc⟩ := exists_evictionOrder accounted.entries tier protectedIds
  have hr := reserveCopies_yields accounted hc hd ho.evictable requests
  refine ⟨order, ho, hr.mono (fun _ _ hl => hl.2.2.2) fun _ _ hf => hf.1, ?_⟩
  unfold Yields at hr
  split at hr
  · rename_i hok
    rw [hok]
    refine iff_of_false ?_ hr.2.2.1
    rintro ⟨cause, -, hf⟩
    cases hf
  · rename_i hfa
    obtain ⟨-, cause, rfl, -, hs⟩ := hr
    rw [hfa, ← hs]
    constructor
    · rintro ⟨cause', he, hf⟩
      cases hf
      exact he
    · exact fun he => ⟨cause, he, rfl⟩

/-- A row that was published first and the windowed unit fill the device. -/
def fullRows : ResidencyLedger :=
  (LedgerCall.publishReserved ⟨"edge"⟩ .device 8 none).perform.final <|
  (LedgerCall.publishReserved ⟨"rows.0"⟩ .device 8 none).perform.final <|
  (LedgerCall.reserveCopies [(⟨"rows.0"⟩, 8), (⟨"edge"⟩, 8)] .device ∅).perform.final (.new rowsPlan)

theorem evictionCandidates_fullRows :
    evictionCandidates fullRows .device ∅ = [⟨"edge"⟩, ⟨"rows.0"⟩] := by
  have candidates : fullRows.values.filterMap (evictionCandidate fullRows .device ∅) =
      [⟨0, 0, 4, ⟨"edge"⟩⟩, ⟨1, 0, 3, ⟨"rows.0"⟩⟩] := rfl
  simp only [evictionCandidates, candidates]
  rw [mergeSort_of_pairwise (by decide)]
  rfl

theorem reserveCopies_fullRows :
    ((reserveCopies [(⟨"rows.2"⟩, 8)] .device ∅).outcome fullRows).1 =
      .ok [⟨⟨"edge"⟩, .device, 8⟩] := by
  have tier : validateLedgerTier .device "capacity reservation" = .ok () := rfl
  have batch : validateBatch fullRows [⟨"rows.2"⟩] .device = .ok () := by decide +kernel
  have admitted : admitRequests fullRows .device 0 [(⟨"rows.2"⟩, 8)] = .ok 8 := by decide +kernel
  have planned : planEvictions fullRows ⟨"rows.2"⟩ .device ∅ 8 = .ok [⟨"edge"⟩] := by
    unfold planEvictions
    rw [evictionCandidates_fullRows]
    decide +kernel
  simp only [reserveCopies, outcome_bind, outcome_get, outcome_ofResult_ok, map_cons, map_nil, tier,
    batch, admitted, planned]
  decide +kernel

/-- The windowed unit makes room for another row, although it was used last. -/
theorem reservation_evicts_least_rows : ∃ order count, EvictionOrder fullRows .device ∅ order ∧
    Shortest fullRows .device 8 (order.map (·.id)) count ∧
    (order.map (·.id)).take count = [⟨"edge"⟩] := by
  have reached : Reachable rowsPlan fullRows := ((Reachable.new.call _).call _).call _
  obtain ⟨order, ordered, yields, -⟩ :=
    reservation_evicts_least reached [(⟨"rows.2"⟩, 8)] .device ∅
  unfold Yields at yields
  have evicts := reserveCopies_fullRows
  split at yields
  · rename_i evicted after ended
    obtain ⟨count, least, -, rfl⟩ := yields
    rw [ended] at evicts
    have victims := congrArg (map EvictedResidencyCopy.id) (Except.ok.inj evicts)
    exact ⟨order, count, ordered, least, by simpa [Function.comp_def] using victims⟩
  · rename_i fault after ended
    rw [ended] at evicts
    cases evicts

/-- One row of a size that no budget can hold next to the reserved ones: the bytes needed do not fit
in a word, and that is what the reservation reports. -/
theorem reservation_beyond_words :
    ∃ order, Reachable rowsPlan reservedRows ∧ EvictionOrder reservedRows .device ∅ order ∧
      Requested reservedRows .device [(⟨"rows.2"⟩, maximum)] ∧
      ¬ Fits reservedRows .device maximum (order.map (·.id)) ∧
      ((reserveCopies [(⟨"rows.2"⟩, maximum)] .device ∅).outcome reservedRows).1 =
        .error (.error (.arithmeticOverflow "budget reservation")) := by
  have hr : Reachable rowsPlan reservedRows := Reachable.new.call _
  obtain ⟨accounted, -⟩ := hr.accounted
  obtain ⟨order, ho, hd, -⟩ := exists_evictionOrder accounted.entries .device ∅
  refine ⟨order, hr, ho, ⟨by decide, by simp, ?_, by decide, ?_, by decide⟩, fun hf => ?_,
    by decide +kernel⟩
  · decide +kernel
  · decide +kernel
  · have hs := sum_bytes_le accounted hd ho.evictable
    have hb : reservedRows.tierBytes .device = 16 := by decide +kernel
    have hn := hf 16 (by decide +kernel)
    unfold Word.maximum at hn
    omega

end Eredu.Residency
