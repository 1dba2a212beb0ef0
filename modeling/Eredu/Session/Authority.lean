import Eredu.Foundation.Word
import Mathlib.Data.List.Nodup

/-!
# Exclusive ownership of a session

`session_authority.rs`: the authority keeps the ticket of the submission that owns
the session in an atomic cell, 0 if there is none, and leases clear the cell by
compare-and-exchange. Starting a submission reads the cell and stores the new
ticket in two steps, between which other threads may resolve or drop leases.
-/

namespace Eredu.SessionAuthority

open List

/-- A lease that was given out. `released` says that it has been resolved or dropped. -/
structure Lease where
  ticket : Nat
  released : Bool
  dropped : Bool
  deriving Repr, DecidableEq

/-- The authority and every lease it has given out, the last one first. `starting` says that
`begin_submission` has found the session idle and has not stored its ticket yet. -/
structure State where
  active : Nat
  nextTicket : Nat
  starting : Bool
  leases : List Lease
  deriving Repr, DecidableEq

def new : State := ⟨0, 1, false, []⟩

/-- The atomic steps of the threads. A lease is named by its age, the number of leases begun
after it. -/
inductive Event where
  | requireIdle
  | beginLoad
  | beginStore
  | resolve (age : Nat)
  | drop (age : Nat)
  deriving Repr, DecidableEq

inductive Answer where
  | done
  | busy
  | ticketExhausted
  | released (now : Bool)
  deriving Repr, DecidableEq

def requireIdle (s : State) : Answer := if s.active = 0 then .done else .busy

/-- The compare-and-exchange of `resolve`, which `drop` makes too. -/
def release (s : State) (age : Nat) (lease : Lease) (dropped : Bool) : State × Answer :=
  ({ s with
      active := if s.active = lease.ticket then 0 else s.active
      leases := s.leases.set age { lease with released := true, dropped } },
    .released (s.active = lease.ticket))

/-- A step, if some thread can take it: `begin_submission` borrows the authority until it
returns, and a dropped lease is gone. -/
def step (s : State) : Event → Option (State × Answer)
  | .requireIdle => if s.starting then none else some (s, requireIdle s)
  | .beginLoad =>
      if s.starting then none
      else some ({ s with starting := requireIdle s = .done }, requireIdle s)
  | .beginStore =>
      if !s.starting then none
      else
        match Word.checkedAdd s.nextTicket 1 with
        | none => some ({ s with starting := false }, .ticketExhausted)
        | some next =>
            some (⟨s.nextTicket, next, false, ⟨s.nextTicket, false, false⟩ :: s.leases⟩, .done)
  | .resolve age => do
      let lease ← s.leases[age]?
      if lease.dropped then none else some (release s age lease false)
  | .drop age => do
      let lease ← s.leases[age]?
      if lease.dropped then none else some (release s age lease true)

inductive Reachable : State → Prop
  | new : Reachable new
  | step {s t : State} {event : Event} {answer : Answer} :
      Reachable s → step s event = some (t, answer) → Reachable t

section Step

variable {s t : State} {age : Nat} {lease : Lease} {answer : Answer}

theorem requireIdle_eq_done : requireIdle s = .done ↔ s.active = 0 := by
  unfold requireIdle
  split <;> simp_all

theorem step_beginStore (hs : step s .beginStore = some (t, answer)) : s.starting = true ∧
      (answer = .ticketExhausted ∧ t = { s with starting := false } ∨
        answer = .done ∧
          t = ⟨s.nextTicket, s.nextTicket + 1, false, ⟨s.nextTicket, false, false⟩ :: s.leases⟩) := by
  simp only [step] at hs
  split at hs
  · cases hs
  rename_i starting
  refine ⟨by simpa using starting, ?_⟩
  split at hs
  · cases hs
    exact .inl ⟨rfl, rfl⟩
  · rename_i next added
    obtain ⟨rfl, -⟩ := Word.checkedAdd_eq_some.mp added
    cases hs
    exact .inr ⟨rfl, rfl⟩

theorem step_release (hs : step s (.resolve age) = some (t, answer) ∨
    step s (.drop age) = some (t, answer)) :
    ∃ lease dropped, s.leases[age]? = some lease ∧ t = (release s age lease dropped).1 := by
  obtain hs | hs := hs <;>
    · simp only [step, Option.bind_eq_bind, Option.bind_eq_some_iff] at hs
      obtain ⟨lease, found, hs⟩ := hs
      split at hs
      · cases hs
      · exact ⟨lease, _, found, (congrArg Prod.fst (Option.some.inj hs)).symm⟩

end Step

/-- The cell names the lease that began last until it is released; earlier ones are released. -/
structure Owned (s : State) : Prop where
  nonzero : s.nextTicket ≠ 0
  issued : ∀ lease ∈ s.leases, lease.ticket ≠ 0 ∧ lease.ticket < s.nextTicket
  distinct : (s.leases.map (·.ticket)).Nodup
  earlier : ∀ lease ∈ s.leases.tail, lease.released = true
  active : s.active = (s.leases.head?.elim 0 fun last => if last.released then 0 else last.ticket)
  starting : s.starting = true → s.active = 0

theorem owned_new : Owned new := by
  constructor <;> simp [new]

theorem map_ticket_set {leases : List Lease} {age : Nat} {lease : Lease} (released dropped : Bool)
    (found : leases[age]? = some lease) :
    (leases.set age ⟨lease.ticket, released, dropped⟩).map (·.ticket) = leases.map (·.ticket) := by
  apply ext_getElem <;> simp
  grind

theorem mem_tail_set {leases : List Lease} {age : Nat} {lease other : Lease}
    (hm : other ∈ (leases.set age lease).tail) : other ∈ leases.tail ∨ other = lease := by
  cases leases with
  | nil => cases hm
  | cons last rest =>
    cases age with
    | zero => exact .inl hm
    | succ age => exact mem_or_eq_of_mem_set hm

namespace Owned

variable {s t : State} {age : Nat} {lease : Lease} {event : Event} {answer : Answer}

theorem idle_iff (owned : Owned s) :
    s.active = 0 ↔ ∀ last ∈ s.leases.head?, last.released = true := by
  rw [owned.active]
  cases hl : s.leases with
  | nil => simp
  | cons last rest =>
    have nonzero := (owned.issued last (by simp [hl])).1
    simp [nonzero]

theorem owner_iff (owned : Owned s) (hl : lease ∈ s.leases) :
    s.active = lease.ticket ↔ lease.released = false := by
  obtain ⟨active, nextTicket, starting, leases⟩ := s
  cases leases with
  | nil => cases hl
  | cons last rest =>
    have nonzero := (owned.issued lease hl).1
    have distinct := owned.distinct
    have held := owned.active
    simp only [map_cons, nodup_cons, mem_map, not_exists, not_and] at distinct
    simp only [List.head?_cons, Option.elim_some] at held
    rcases mem_cons.mp hl with rfl | member
    · subst held
      cases hr : lease.released <;> simp [Ne.symm nonzero]
    · have released := owned.earlier lease member
      have other : lease.ticket ≠ last.ticket := distinct.1 lease member
      subst held
      split <;> simp [released, Ne.symm nonzero, Ne.symm other]

theorem release (owned : Owned s) (found : s.leases[age]? = some lease) (dropped : Bool) :
    Owned (release s age lease dropped).1 := by
  have tickets := map_ticket_set true dropped found
  refine ⟨owned.nonzero, fun other hm => ?_, ?_, fun other hm => ?_, ?_, fun starting => ?_⟩
  · have named : other.ticket ∈ s.leases.map (·.ticket) := by
      rw [← tickets]
      exact mem_map_of_mem hm
    obtain ⟨before, hb, equal⟩ := mem_map.mp named
    rw [← equal]
    exact owned.issued before hb
  · exact tickets ▸ owned.distinct
  · rcases mem_tail_set hm with hm | rfl
    · exact owned.earlier other hm
    · rfl
  · have owner := owned.owner_iff (mem_of_getElem? found)
    have held := owned.active
    cases hl : s.leases with
    | nil => simp [hl] at found
    | cons last rest =>
      simp only [SessionAuthority.release, hl, List.head?_cons] at held ⊢
      cases age with
      | zero => cases hr : last.released <;> simp_all
      | succ age =>
        have member : lease ∈ s.leases.tail := by
          rw [hl] at found ⊢
          exact mem_of_getElem? found
        rw [if_neg (by simp [owner, owned.earlier lease member]), held]
        rfl
  · have idle := owned.starting starting
    simp [SessionAuthority.release, idle]

theorem step (owned : Owned s) (hs : step s event = some (t, answer)) : Owned t := by
  cases event with
  | requireIdle =>
    simp only [SessionAuthority.step] at hs
    split at hs <;> cases hs
    exact owned
  | beginLoad =>
    simp only [SessionAuthority.step] at hs
    split at hs <;> cases hs
    exact { owned with starting idle := requireIdle_eq_done.mp (of_decide_eq_true idle) }
  | beginStore =>
    obtain ⟨starting, ⟨-, rfl⟩ | ⟨-, rfl⟩⟩ := step_beginStore hs
    · exact { owned with starting := nofun }
    · have idle := owned.idle_iff.mp (owned.starting starting)
      refine ⟨Nat.succ_ne_zero _, ?_, ?_, ?_, rfl, nofun⟩
      · intro lease hm
        rcases mem_cons.mp hm with rfl | hm
        · exact ⟨owned.nonzero, Nat.lt_succ_self _⟩
        · exact ⟨(owned.issued lease hm).1, Nat.lt_succ_of_lt (owned.issued lease hm).2⟩
      · refine nodup_cons.mpr ⟨fun hm => ?_, owned.distinct⟩
        obtain ⟨lease, hl, equal⟩ := mem_map.mp hm
        exact (owned.issued lease hl).2.ne equal
      · intro lease hm
        cases hl : s.leases with
        | nil => simp [hl] at hm
        | cons last rest =>
          rcases mem_cons.mp (hl ▸ hm) with rfl | hm
          · exact idle lease (by simp [hl])
          · exact owned.earlier lease (by simpa [hl] using hm)
  | resolve age =>
    obtain ⟨lease, dropped, found, rfl⟩ := step_release (.inl hs)
    exact owned.release found dropped
  | drop age =>
    obtain ⟨lease, dropped, found, rfl⟩ := step_release (.inr hs)
    exact owned.release found dropped

end Owned

theorem Reachable.owned {s : State} (reachable : Reachable s) : Owned s := by
  induction reachable with
  | new => exact owned_new
  | step _ hs ih => exact ih.step hs

/-- At most one unreleased lease owns the session; releasing an older lease leaves the owner's
ticket; the session is idle exactly if the last lease is released; tickets are never reused; and
a submission that is refused changes nothing. -/
theorem exclusive_session_ownership {s : State} (reachable : Reachable s) :
    (s.leases.countP (fun lease => !lease.released) ≤ 1 ∧
      ∀ lease ∈ s.leases, s.active = lease.ticket ↔ lease.released = false) ∧
    (∀ age earlier answer t owner,
      (step s (.resolve age) = some (t, answer) ∨ step s (.drop age) = some (t, answer)) →
      s.leases[earlier]? = some owner → earlier < age → s.active = owner.ticket →
      t.active = owner.ticket ∧ t.leases[earlier]? = some owner) ∧
    (∀ event answer t, event = .requireIdle ∨ event = .beginLoad → step s event = some (t, answer) →
      (answer = .done ↔ ∀ last ∈ s.leases.head?, last.released = true)) ∧
    (s.leases.map (·.ticket)).Nodup ∧ (∀ event answer t, event = .beginLoad ∨ event = .beginStore →
      step s event = some (t, answer) → answer ≠ .done → t = { s with starting := false }) := by
  have owned := reachable.owned
  refine ⟨⟨?_, fun lease hl => owned.owner_iff hl⟩, ?_, ?_, owned.distinct, ?_⟩
  · cases hl : s.leases with
    | nil => simp
    | cons last rest =>
      have earlier : rest.countP (fun lease => !lease.released) = 0 := by
        refine countP_eq_zero.mpr fun lease hm => ?_
        simp [owned.earlier lease (by simpa [hl] using hm)]
      rw [countP_cons, earlier]
      split <;> simp
  · intro age earlier answer t owner hs hf older held
    obtain ⟨lease, dropped, found, rfl⟩ := step_release hs
    have other : lease.ticket ≠ owner.ticket := by
      have member : lease ∈ s.leases.tail := by
        cases hl : s.leases with
        | nil => simp [hl] at found
        | cons last rest =>
          obtain ⟨age, rfl⟩ := Nat.exists_eq_add_of_lt older
          rw [hl] at found
          exact mem_of_getElem? found
      intro equal
      have unreleased := (owned.owner_iff (mem_of_getElem? found)).mp (held.trans equal.symm)
      simp [owned.earlier lease member] at unreleased
    refine ⟨?_, ?_⟩
    · simp [release, held, Ne.symm other]
    · simp only [release]
      rw [List.getElem?_set_ne older.ne', hf]
  · intro event answer t he hs
    rw [← owned.idle_iff, ← requireIdle_eq_done]
    obtain rfl | rfl := he <;>
      · simp only [step] at hs
        split at hs <;> cases hs
        rfl
  · intro event answer t he hs refused
    obtain rfl | rfl := he
    · simp only [step] at hs
      split at hs <;> cases hs
      simp [refused]
    · obtain ⟨-, ⟨-, rfl⟩ | ⟨done, -⟩⟩ := step_beginStore hs
      · rfl
      · exact absurd done refused

/-- A second submission begins between the resolution of the first one's lease and its drop. -/
theorem exclusive_session_ownership_stale :
    Reachable ⟨2, 3, false, [⟨2, false, false⟩, ⟨1, true, true⟩]⟩ ∧
      ∀ last ∈ [Lease.mk 2 false false, ⟨1, true, true⟩], 2 = last.ticket ↔ last.released = false := by
  have first : Reachable ⟨1, 2, false, [⟨1, false, false⟩]⟩ :=
    (Reachable.new.step (show step _ .beginLoad = _ from rfl)).step (show step _ .beginStore = _ from rfl)
  have resolved : Reachable ⟨0, 2, false, [⟨1, true, false⟩]⟩ :=
    first.step (show step _ (.resolve 0) = _ from rfl)
  have second : Reachable ⟨2, 3, false, [⟨2, false, false⟩, ⟨1, true, false⟩]⟩ :=
    (resolved.step (show step _ .beginLoad = _ from rfl)).step (show step _ .beginStore = _ from rfl)
  have stale : Reachable ⟨2, 3, false, [⟨2, false, false⟩, ⟨1, true, true⟩]⟩ :=
    second.step (show step _ (.drop 1) = _ from rfl)
  exact ⟨stale, (exclusive_session_ownership stale).1.2⟩

end Eredu.SessionAuthority
