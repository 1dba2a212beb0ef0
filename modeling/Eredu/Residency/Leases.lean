import Eredu.Residency.Transitions

/-!
# Leases on resident copies

A lease pins a copy when it is created and unpins the unit when it is dropped, as
`ResidencyLease` does. The ledger counts pins by unit and tier only. Here every
lease remembers which publication of the copy it was taken on, so that a pin
count can be compared with the leases on the copy that carries it.
-/

namespace Eredu.Residency

open Std Effect ResidencyLedger List View

/-- A pin that was taken and not yet released, with the publication it was taken on. -/
structure Lease where
  id : OffloadUnitId
  tier : MemoryTier
  publication : Nat
  deriving DecidableEq, Repr

structure Desk where
  ledger : ResidencyLedger
  /-- How often a copy of the unit was published in the tier. -/
  published : OffloadUnitId → MemoryTier → Nat
  leases : List Lease

inductive Action where
  | call (call : LedgerCall)
  | release (lease : Lease)

variable (desk : Desk) (id : OffloadUnitId) (tier : MemoryTier) (plan : OffloadPlan)

namespace Desk

def new : Desk where
  ledger := .new plan
  published _ _ := 0
  leases := []

def lease : Lease :=
  ⟨id, tier, desk.published id tier⟩

def record : LedgerCall → Desk
  | .publishReserved id tier _ _ =>
      { desk with
        published id' tier' :=
          if id' = id ∧ tier' = tier then desk.published id tier + 1 else desk.published id' tier' }
  | .pin id tier _ => { desk with leases := desk.lease id tier :: desk.leases }
  | _ => desk

def step : Action → Desk
  | .call call =>
      match call.perform.outcome desk.ledger with
      | (.ok _, ledger) => { desk.record call with ledger }
      | (.error _, ledger) => { desk with ledger }
  | .release lease =>
      { desk with
        ledger := (unpin lease.id lease.tier).final desk.ledger
        leases := desk.leases.erase lease }

/-- The present copy is resident, and a pin taken on it is unreleased. -/
def Leased : Prop :=
  (∃ owned, desk.ledger.view id tier = some owned ∧ owned.lifecycle = .resident) ∧
    desk.lease id tier ∈ desk.leases

/-- Pins are released through the lease they gave, and each once. -/
def Permitted : Action → Prop
  | .call (.unpin _ _) => False
  | .call _ => True
  | .release lease => lease ∈ desk.leases

/-- A lease that outlived its copy is not released while the present copy is leased. -/
def Timely : Action → Prop
  | .call _ => True
  | .release lease =>
      lease.publication = desk.published lease.id lease.tier ∨ ¬ desk.Leased lease.id lease.tier

/-- The desks that actions of one kind lead to. -/
inductive Run (plan : OffloadPlan) (allowed : Desk → Action → Prop) : Desk → Prop
  | new : Run plan allowed (.new plan)
  | step {desk : Desk} (before : Run plan allowed desk) (action : Action)
      (permitted : allowed desk action) : Run plan allowed (desk.step action)

end Desk

open Desk

def Counted : Prop :=
  ∀ owned, desk.ledger.view id tier = some owned →
    match owned.lifecycle with
    | .resident => owned.pins = desk.leases.count (desk.lease id tier)
    | .reserved => owned.pins = 0

/-- Every count is right and no lease is from the future. -/
structure Counts (desk : Desk) : Prop where
  accounted : Accounted desk.ledger
  counted : ∀ id tier, Counted desk id tier
  past : ∀ lease ∈ desk.leases, lease.publication ≤ desk.published lease.id lease.tier

theorem new_counts : Counts (.new plan) := by
  refine ⟨new_accounted plan, fun id tier owned hs => ?_, by simp [Desk.new]⟩
  obtain ⟨copy, hf, -⟩ := view_eq_some hs
  obtain ⟨-, unit, hl, owned⟩ := copy_eq_some hf
  obtain ⟨spec, -, rfl⟩ := new_lookup hl
  cases tier <;> cases owned

section Steps

variable {desk : Desk}

variable {ledger : ResidencyLedger}

/-- A call that changes no lease keeps the counts if it keeps the pins of the copies that stay. -/
theorem Counts.keep (hco : Counts desk) (ha : Accounted ledger)
    (hs : ∀ id tier owned, ledger.view id tier = some owned →
      (owned.lifecycle = .reserved ∧ owned.pins = 0) ∨
        ∃ old, desk.ledger.view id tier = some old ∧ old.lifecycle = owned.lifecycle ∧
          old.pins = owned.pins) : Counts { desk with ledger } := by
  refine ⟨ha, fun id tier owned hsh => ?_, hco.past⟩
  rcases hs id tier owned hsh with ⟨hr, hu⟩ | ⟨old, hp, hl, hpi⟩
  · simp only [hr]
    exact hu
  · have hc := hco.counted id tier old hp
    rw [hl, hpi] at hc
    exact hc

theorem set_cases {view : View} {id id' : OffloadUnitId} {tier tier' : MemoryTier}
    {written : Option Ownership} {owned : Ownership}
    (hs : set view id tier written id' tier' = some owned) :
    (id' = id ∧ tier' = tier ∧ written = some owned) ∨
      ¬ (id' = id ∧ tier' = tier) ∧ view id' tier' = some owned := by
  unfold View.set at hs
  split at hs
  · rename_i hsa
    exact .inl ⟨hsa.1, hsa.2, hs⟩
  · rename_i hd
    exact .inr ⟨hd, hs⟩

theorem Counts.publish (hc : Counts desk) {id : OffloadUnitId} {tier : MemoryTier} {bytes : Nat}
    {inFlight : Option Nat} (ha : Accounted ledger)
    (hv : ledger.view = set desk.ledger.view id tier (some ⟨.resident, bytes, 0, inFlight⟩)) :
    Counts { desk.record (.publishReserved id tier bytes inFlight) with ledger } := by
  refine ⟨ha, fun id' tier' owned hs => ?_, fun lease hh => ?_⟩
  · change ledger.view id' tier' = some owned at hs
    rw [hv] at hs
    rcases set_cases hs with ⟨rfl, rfl, hw⟩ | ⟨hd, hk⟩
    · cases hw
      have hf : (⟨id', tier', desk.published id' tier' + 1⟩ : Lease) ∉ desk.leases := by
        intro hh
        have hp := hc.past _ hh
        simp only at hp
        omega
      simp only [record, lease, and_self]
      exact (count_eq_zero_of_not_mem hf).symm
    · have hco := hc.counted id' tier' owned hk
      simpa only [record, lease, if_neg hd] using hco
  · have hp := hc.past lease hh
    simp only [record]
    split
    · rename_i hsa
      rw [hsa.1, hsa.2] at hp
      omega
    · exact hp

theorem Counts.pin (hco : Counts desk) {id : OffloadUnitId} {tier : MemoryTier} {demand : Nat}
    (ha : Accounted ledger) {owned : Ownership}
    (hp : desk.ledger.view id tier = some owned) (hr : owned.lifecycle = .resident)
    (hv : ledger.view =
      set desk.ledger.view id tier (some { owned with pins := owned.pins + 1 })) :
    Counts { desk.record (.pin id tier demand) with ledger } := by
  refine ⟨ha, fun id' tier' owned' hs => ?_, fun lease hh => ?_⟩
  · change ledger.view id' tier' = some owned' at hs
    rw [hv] at hs
    rcases set_cases hs with ⟨rfl, rfl, hw⟩ | ⟨hd, hk⟩
    · cases hw
      have hc := hco.counted id' tier' owned hp
      simp only [hr] at hc ⊢
      simp only [record, lease, count_cons_self, hc]
    · have hc := hco.counted id' tier' owned' hk
      have ho : desk.lease id tier ≠ desk.lease id' tier' := by
        intro hsa
        cases hsa
        exact hd ⟨rfl, rfl⟩
      rw [← count_cons_of_ne ho] at hc
      exact hc
  · rcases mem_cons.mp hh with rfl | he
    · exact Nat.le_refl _
    · exact hco.past lease he

/-- Releasing a lease takes its pin from the copy it was taken on. A lease whose copy is gone takes
none, provided that the present copy has no pins to lose. -/
theorem Counts.release (hco : Counts desk) {lease : Lease} (ht : desk.Timely (.release lease)) :
    Counts (desk.step (.release lease)) := by
  obtain ⟨id, tier, publication⟩ := lease
  have hu := unpin_yields hco.accounted id tier
  obtain ⟨ha, -, hm⟩ := (hu.mono (fun _ _ hle => hle) fun _ _ hi => hi.elim).final
  have ho : ∀ id' tier', ¬ (id' = id ∧ tier' = tier) →
      (desk.leases.erase ⟨id, tier, publication⟩).count (desk.lease id' tier') =
        desk.leases.count (desk.lease id' tier') := by
    intro id' tier' hd
    apply count_erase_of_ne
    intro hsa
    cases hsa
    exact hd ⟨rfl, rfl⟩
  refine ⟨ha, fun id' tier' owned hs => ?_, fun lease hh =>
    hco.past lease (mem_of_mem_erase hh)⟩
  change ((unpin id tier).final desk.ledger).view id' tier' = some owned at hs
  rcases hm with ⟨hab, hv⟩ | ⟨old, hp, hv⟩
  · rw [hv] at hs
    have hd : ¬ (id' = id ∧ tier' = tier) := by
      rintro ⟨rfl, rfl⟩
      rw [hab] at hs
      cases hs
    have hc := hco.counted id' tier' owned hs
    rw [← ho id' tier' hd] at hc
    exact hc
  · rw [hv] at hs
    rcases set_cases hs with ⟨rfl, rfl, hw⟩ | ⟨hd, hk⟩
    · cases hw
      have hc := hco.counted id' tier' old hp
      cases hl : old.lifecycle with
      | reserved =>
        simp only [hl] at hc ⊢
        omega
      | resident =>
        simp only [hl] at hc ⊢
        show old.pins - 1 = (desk.leases.erase _).count (desk.lease id' tier')
        rcases ht with hcu | hun
        · -- The lease is one of those the present copy counts.
          have hsa : (⟨id', tier', publication⟩ : Lease) = desk.lease id' tier' := by
            rw [Desk.lease, ← show publication = desk.published id' tier' from hcu]
          rw [hsa, count_erase_self, hc]
        · have hn : desk.lease id' tier' ∉ desk.leases := fun hh => hun ⟨⟨old, hp, hl⟩, hh⟩
          have hn' : desk.lease id' tier' ∉ desk.leases.erase ⟨id', tier', publication⟩ :=
            fun hh => hn (mem_of_mem_erase hh)
          rw [hc, count_eq_zero_of_not_mem hn, count_eq_zero_of_not_mem hn']
    · have hc := hco.counted id' tier' owned hk
      rw [← ho id' tier' hd] at hc
      exact hc

theorem Counts.call (hc : Counts desk) {call : LedgerCall} (hpe : desk.Permitted (.call call)) :
    Counts (desk.step (.call call)) := by
  have hse := perform_settles hc.accounted call
  unfold Settles Yields at hse
  unfold Desk.step
  split at hse
  · rename_i ledger hre
    simp only [hre]
    obtain ⟨ha, -, hm⟩ := hse
    cases call with
    | reserveCopies requests tier protectedIds =>
      apply hc.keep ha
      intro id' tier' owned hs
      rcases hm id' tier' with hsa | ⟨-, ⟨-, hr⟩ | ⟨-, bytes, hrd⟩⟩
      · exact .inr ⟨owned, hsa.symm.trans hs, rfl, rfl⟩
      · rw [hr] at hs
        cases hs
      · rw [hrd] at hs
        cases hs
        exact .inl ⟨rfl, rfl⟩
    | publishReserved id tier actualBytes inFlight =>
      obtain ⟨owned, -, -, hv⟩ := hm
      exact hc.publish ha hv
    | rollbackReserved id tier =>
      apply hc.keep ha
      intro id' tier' owned hs
      rcases hm with hsa | ⟨old, -, -, hv⟩
      · exact .inr ⟨owned, hsa ▸ hs, rfl, rfl⟩
      · rw [hv] at hs
        rcases set_cases hs with ⟨-, -, hw⟩ | ⟨-, hk⟩
        · cases hw
        · exact .inr ⟨owned, hk, rfl, rfl⟩
    | resolveTransfer ids tier generation succeeded =>
      apply hc.keep ha
      intro id' tier' owned hs
      rcases hm id' tier' with hsa | ⟨-, old, hp, -, hr | har⟩
      · exact .inr ⟨owned, hsa.symm.trans hs, rfl, rfl⟩
      · rw [hr] at hs
        cases hs
      · rw [har] at hs
        cases hs
        exact .inr ⟨old, hp, rfl, rfl⟩
    | pin id tier demand =>
      obtain ⟨owned, hp, hrt, hv⟩ := hm
      exact hc.pin ha hp hrt hv
    | unpin id tier => exact hpe.elim
    | evict id tier =>
      apply hc.keep ha
      intro id' tier' owned hs
      rcases hm with hsa | ⟨old, -, -, -, hv⟩
      · exact .inr ⟨owned, hsa ▸ hs, rfl, rfl⟩
      · rw [hv] at hs
        rcases set_cases hs with ⟨-, -, hw⟩ | ⟨-, hk⟩
        · cases hw
        · exact .inr ⟨owned, hk, rfl, rfl⟩
    | nextTransferGeneration | touch | setGroupWindow =>
      exact hc.keep ha fun _ _ owned hs => .inr ⟨owned, hm ▸ hs, rfl, rfl⟩
  · rename_i ledger hst
    simp only [hst]
    obtain ⟨ha, -, hv, -⟩ := hse
    exact hc.keep ha fun _ _ owned hs => .inr ⟨owned, hv ▸ hs, rfl, rfl⟩

end Steps

theorem Run.counts {plan : OffloadPlan} {desk : Desk}
    (run : Run plan (fun desk action => desk.Permitted action ∧ desk.Timely action) desk) :
    Counts desk := by
  induction run with
  | new => exact new_counts plan
  | step hb action hp ih =>
    cases action with
    | call call => exact ih.call hp.1
    | release lease => exact ih.release hp.2

def LedgerCall.MakesRoom : LedgerCall → Prop
  | .evict _ _ | .reserveCopies _ _ _ => True
  | _ => False

/-- In a run that releases outlived leases in time, a leased copy is not evicted. -/
theorem leased_copy_stays {plan : OffloadPlan} {desk : Desk}
    (run : Run plan (fun desk action => desk.Permitted action ∧ desk.Timely action) desk)
    {id : OffloadUnitId} {tier : MemoryTier} (leased : desk.Leased id tier) {call : LedgerCall}
    (room : call.MakesRoom) :
    (call.perform.final desk.ledger).view id tier = desk.ledger.view id tier := by
  have hc := Run.counts run
  obtain ⟨⟨owned, hp, hr⟩, hh⟩ := leased
  have hpi : owned.pins ≠ 0 := by
    have hco := hc.counted id tier owned hp
    simp only [hr] at hco
    have hpo := count_pos_iff.mpr hh
    omega
  have hse := perform_settles hc.accounted call
  have hst : ∀ after : View, call.Moves desk.ledger.view after →
      after id tier = desk.ledger.view id tier := by
    intro after hm
    cases call with
    | evict id' tier' =>
      rcases hm with hsa | ⟨old, hs, -, hu, hv⟩
      · rw [hsa]
      · rw [hv, View.set, if_neg]
        rintro ⟨rfl, rfl⟩
        rw [hp] at hs
        cases hs
        exact hpi hu
    | reserveCopies requests tier' protectedIds =>
      rcases hm id tier with hsa | ⟨rfl, ⟨⟨old, hs, -, hu⟩, -⟩ | ⟨ha, -⟩⟩
      · exact hsa
      · rw [hp] at hs
        cases hs
        exact absurd hu hpi
      · rw [hp] at ha
        cases ha
    | _ => exact room.elim
  exact (hse.mono
    (fun _ (after : ResidencyLedger) hl =>
      (hst after.view hl.2.2 : after.view id tier = desk.ledger.view id tier))
    fun _ _ hl => by rw [hl.2.2.1]).final

def Desk.callAll (desk : Desk) (calls : List LedgerCall) : Desk :=
  calls.foldl (fun desk call => desk.step (.call call)) desk

theorem Desk.Run.callAll {plan : OffloadPlan} {allowed : Desk → Action → Prop} {desk : Desk}
    (run : Run plan allowed desk) {calls : List LedgerCall}
    (hp : ∀ call ∈ calls, ∀ desk, allowed desk (.call call)) :
    Run plan allowed (desk.callAll calls) := by
  induction calls generalizing desk with
  | nil => exact run
  | cons call rest ih =>
    obtain ⟨hf, ho⟩ := forall_mem_cons.mp hp
    exact ih (run.step (.call call) (hf desk)) ho

def republishCalls : List LedgerCall :=
  [.reserveCopies [(⟨"rows.0"⟩, 8)] .device ∅, .publishReserved ⟨"rows.0"⟩ .device 8 (some 1),
    .pin ⟨"rows.0"⟩ .device 1, .resolveTransfer [⟨"rows.0"⟩] .device 1 false,
    .reserveCopies [(⟨"rows.0"⟩, 8)] .device ∅, .publishReserved ⟨"rows.0"⟩ .device 8 none,
    .pin ⟨"rows.0"⟩ .device 1]

def republished : Desk := (Desk.new rowsPlan).callAll republishCalls

/-- The first lease is dropped late. -/
def lateRelease : Desk := republished.step (.release ⟨⟨"rows.0"⟩, .device, 1⟩)

theorem republishCalls_permitted : ∀ call ∈ republishCalls, ∀ desk, Desk.Permitted desk (.call call) := by
  simp [republishCalls, Desk.Permitted]

/-- The late release takes the pin of the second lease, and the copy is evicted under it. -/
theorem late_release_evicts_leased_copy :
    Run rowsPlan Desk.Permitted lateRelease ∧ lateRelease.Leased ⟨"rows.0"⟩ .device ∧
      ((LedgerCall.evict ⟨"rows.0"⟩ .device).perform.final lateRelease.ledger).view
        ⟨"rows.0"⟩ .device = none := by
  have hh : (⟨⟨"rows.0"⟩, .device, 1⟩ : Lease) ∈ republished.leases := by decide +kernel
  refine ⟨(Run.new.callAll republishCalls_permitted).step _ hh,
    ⟨⟨⟨.resident, 8, 0, none⟩, ?_, rfl⟩, ?_⟩, ?_⟩
  · decide +kernel
  · decide +kernel
  · decide +kernel

theorem leased_copy_stays_republished : republished.Leased ⟨"rows.0"⟩ .device ∧
      ((LedgerCall.evict ⟨"rows.0"⟩ .device).perform.final republished.ledger).view
        ⟨"rows.0"⟩ .device = republished.ledger.view ⟨"rows.0"⟩ .device := by
  have hl : republished.Leased ⟨"rows.0"⟩ .device :=
    ⟨⟨⟨.resident, 8, 1, none⟩, by decide +kernel, rfl⟩, by decide +kernel⟩
  have run : Run rowsPlan (fun desk action => desk.Permitted action ∧ desk.Timely action)
      republished :=
    Run.new.callAll fun call hli desk => ⟨republishCalls_permitted call hli desk, trivial⟩
  exact ⟨hl, leased_copy_stays run hl trivial⟩

end Eredu.Residency
