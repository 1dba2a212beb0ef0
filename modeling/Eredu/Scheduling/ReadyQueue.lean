import Eredu.Scheduling.Report

/-!
# The ready queue

Every active request with queued work stands in the ready queue once. Preparation
rotates the queue past requests that cannot branch, so it ends, leaves no request
that could still branch, and cannot prepare one request twice while another one
that could branch all the time waits.
-/

namespace Eredu.Scheduling

open Std Effect Ledger List Pass
open scoped List

variable {Ω W S B O : Type}
variable (env : Environment Ω W S B O)

/-- The loop of `prepare_bounded` with its counters. A pass over a request that can branch is
`prepareNext`, which then takes the front of the queue. `none` says that the fuel ran out. -/
def prepareLoop (limit now : Nat) : Nat → Nat → Nat → Op Ω W S B O (Option Nat)
  | 0, _, _ => pure none
  | fuel + 1, count, stalled => do
      if limit ≤ count then
        pure (some count)
      else
        let s := (← get).scheduler
        match s.ready with
        | [] => pure (some count)
        | request :: rest =>
            if canBranch env s request then
              let _ ← prepareNext env now
              prepareLoop limit now fuel (count + 1) 0
            else
              modify fun m => m.update fun s => { s with ready := rest ++ [request] }
              if (rest ++ [request]).length ≤ stalled + 1 then
                pure (some count)
              else
                prepareLoop limit now fuel count (stalled + 1)

/-- The same result, and the same machine unless the result is a panic. -/
def Agrees {α : Type} (left right : Except (Fault SchedulerError) α × Machine Ω W S B O) : Prop :=
  left = right ∨ ∃ message, left.1 = .error (.panic message) ∧ right.1 = .error (.panic message)

variable (m : Machine Ω W S B O) (ready : List RequestId)

def Machine.withReady : Machine Ω W S B O :=
  m.update fun s => { s with ready }

@[simp] theorem Machine.withReady_ready : (m.withReady ready).scheduler.ready = ready :=
  rfl

theorem prepareLoop_cons {limit now count : Nat} (hc : count < limit) (request : RequestId)
    (rest : List RequestId) (fuel stalled : Nat) (m : Machine Ω W S B O) :
    (prepareLoop env limit now (fuel + 1) count stalled).outcome (m.withReady (request :: rest)) =
      if canBranch env m.scheduler request then
        (prepareNext env now >>= fun _ => prepareLoop env limit now fuel (count + 1) 0).outcome
          (m.withReady (request :: rest))
      else if rest.length ≤ stalled then
        (.ok (some count), m.withReady (rest ++ [request]))
      else
        (prepareLoop env limit now fuel count (stalled + 1)).outcome
          (m.withReady (rest ++ [request])) := by
  have hr : (rest ++ [request]).length ≤ stalled + 1 ↔ rest.length ≤ stalled := by simp
  have hs : canBranch env (m.withReady (request :: rest)).scheduler request =
      canBranch env m.scheduler request := rfl
  simp only [prepareLoop, hc.not_ge, outcome_bind, outcome_get, Machine.withReady_ready, hs, hr,
    if_false]
  split
  · rw [outcome_bind]
  · split <;> rfl

/-- The loop rotates to the first request that can branch, or stops where it began. -/
theorem prepareLoop_scan {limit count : Nat} (now : Nat) (hc : count < limit) (waiting done : List RequestId)
    (fuel : Nat) (m : Machine Ω W S B O) (hw : waiting ≠ []) :
    (prepareLoop env limit now (fuel + waiting.length) count done.length).outcome
        (m.withReady (waiting ++ done)) =
      match waiting.dropWhile fun request => !canBranch env m.scheduler request with
      | [] => (.ok (some count), m.withReady (done ++ waiting))
      | request :: rest =>
          (prepareNext env now >>= fun _ =>
            prepareLoop env limit now (fuel + rest.length) (count + 1) 0).outcome
            (m.withReady (request :: rest ++ done ++
              waiting.takeWhile fun request => !canBranch env m.scheduler request)) := by
  induction waiting generalizing done with
  | nil => exact absurd rfl hw
  | cons request waiting ih =>
    rw [length_cons, ← add_assoc, cons_append, prepareLoop_cons env hc]
    by_cases hb : canBranch env m.scheduler request = true
    · simp [hb]
    have drops : (request :: waiting).dropWhile (fun request => !canBranch env m.scheduler request) =
        waiting.dropWhile _ := dropWhile_cons_of_pos (by simpa using hb)
    have takes : (request :: waiting).takeWhile (fun request => !canBranch env m.scheduler request) =
        request :: waiting.takeWhile _ := takeWhile_cons_of_pos (by simpa using hb)
    rw [if_neg hb, drops, takes]
    cases waiting with
    | nil => simp
    | cons next waiting =>
      have hm := ih (done ++ [request]) (by simp)
      rw [length_append, length_singleton] at hm
      rw [if_neg (by simp), append_assoc, hm]
      cases (next :: waiting).dropWhile fun request => !canBranch env m.scheduler request <;>
        simp

theorem outcome_bind_error {σ ε α β : Type} {m : Effect σ ε α} {next : α → Effect σ ε β} {state : σ}
    {fault : Fault ε} (hm : (m.outcome state).1 = .error fault) :
    ((m >>= next).outcome state).1 = .error fault := by
  rcases ho : m.outcome state with ⟨_ | _, _⟩ <;> simp_all [outcome_bind]

variable {request : RequestId} {m : Machine Ω W S B O}

theorem prepareNext_rotate {rest : List RequestId} (now : Nat)
    (hs : selectReady env m.scheduler m.scheduler.ready.length m.scheduler.ready =
      (some request, rest)) (hb : canBranch env m.scheduler request = true) :
    ((prepareNext env now).outcome (m.withReady (request :: rest)) = (prepareNext env now).outcome m ∧
      ((prepareNext env now).outcome m).1 ≠ .ok false) ∨
    ∃ message, ((prepareNext env now).outcome (m.withReady (request :: rest))).1 =
        .error (.panic message) ∧ ((prepareNext env now).outcome m).1 = .error (.panic message) := by
  have hs' : selectReady env (m.withReady (request :: rest)).scheduler (rest.length + 1)
      (request :: rest) = (some request, rest) := if_pos hb
  have hsa : (m.withReady (request :: rest)).scheduler.requests = m.scheduler.requests := rfl
  simp only [prepareNext, outcome_bind, outcome_get, Machine.withReady_ready, length_cons, hs, hs',
    hsa]
  rcases m.scheduler.requests[request]? with _ | ⟨state, next, _ | ⟨queued, pending⟩⟩
  · exact .inr ⟨_, rfl, rfl⟩
  · exact .inr ⟨_, rfl, rfl⟩
  · refine .inl ⟨rfl, ?_⟩
    simp only [outcome_bind, outcome_modify, outcome_apply]
    split <;> exact fun hn => by cases hn

theorem prepareLoop_agrees (now : Nat) {limit remaining count : Nat} (hl : count + remaining = limit)
    (m : Machine Ω W S B O) :
    ∃ fuel, ∀ more, fuel ≤ more → Agrees ((prepareLoop env limit now more count 0).outcome m)
      ((prepareMany env now remaining >>= fun prepared => pure (some (count + prepared))).outcome m) := by
  induction remaining generalizing count m with
  | zero =>
    refine ⟨1, fun more hm => .inl ?_⟩
    obtain ⟨more, rfl⟩ := Nat.exists_eq_add_of_le' hm
    rw [prepareLoop, if_pos (by omega)]
    rfl
  | succ remaining ih =>
    have hc : count < limit := by omega
    have hwh : m.withReady m.scheduler.ready = m := rfl
    have hs := selectReady_append env m.scheduler m.scheduler.ready []
    have hsc := fun fuel => prepareLoop_scan env now hc m.scheduler.ready [] fuel m
    simp only [append_nil] at hsc hs
    cases hd : m.scheduler.ready.dropWhile fun request => !canBranch env m.scheduler request with
    | nil =>
      rw [hd] at hs hsc
      have hst : (prepareNext env now).outcome m = (.ok false, m) := by
        simp only [prepareNext, outcome_bind, outcome_get, hs]
        rfl
      refine ⟨m.scheduler.ready.length + 1, fun more hm => .inl ?_⟩
      obtain ⟨more, rfl⟩ := Nat.exists_eq_add_of_le' hm
      simp only [prepareMany, outcome_bind, hst]
      cases hr : m.scheduler.ready with
      | nil => simp [prepareLoop, hc.not_ge, outcome_bind, hr]
      | cons request rest =>
        rw [← hr, ← add_assoc, add_right_comm]
        exact hsc _ (by simp [hr])
    | cons request rest =>
      rw [hd] at hs hsc
      have hb := selectReady_eq env m.scheduler m.scheduler.ready
      rw [hs] at hb
      have hw : m.scheduler.ready ≠ [] := fun hr => by simp [hr] at hd
      have hlo : ∀ more, m.scheduler.ready.length ≤ more →
          (prepareLoop env limit now more count 0).outcome m =
            (prepareNext env now >>= fun _ => prepareLoop env limit now
              (more - m.scheduler.ready.length + rest.length) (count + 1) 0).outcome
              (m.withReady (request :: (rest ++ m.scheduler.ready.takeWhile fun request =>
                !canBranch env m.scheduler request))) := fun more hm => by
        have ht := hsc (more - m.scheduler.ready.length) hw
        rwa [Nat.sub_add_cancel hm] at ht
      obtain ⟨hsa, hg⟩ | ⟨message, hl, hr⟩ := prepareNext_rotate env now hs hb.1
      · rcases ho : (prepareNext env now).outcome m with ⟨fault | _ | _, after⟩
        · refine ⟨m.scheduler.ready.length, fun more hm => .inl ?_⟩
          rw [hlo more hm, prepareMany]
          simp only [outcome_bind, hsa, ho]
        · exact absurd (congrArg Prod.fst ho) hg
        · obtain ⟨fuel, hf⟩ := ih (show count + 1 + remaining = limit by omega) after
          refine ⟨fuel + m.scheduler.ready.length, fun more hm => ?_⟩
          have he := hf (more - m.scheduler.ready.length + rest.length) (by omega)
          rw [hlo more (by omega), prepareMany]
          simpa only [outcome_bind, hsa, ho, if_true, bind_assoc, pure_bind, add_assoc,
            add_comm, add_left_comm] using he
      · refine ⟨m.scheduler.ready.length, fun more hm => .inr ⟨message, ?_, ?_⟩⟩
        · rw [hlo more hm]
          exact outcome_bind_error hl
        · exact outcome_bind_error (outcome_bind_error hr)

/-- No active request with queued work can branch. -/
def Exhausted (m : Machine Ω W S B O) : Prop :=
  ∀ request entry, m.scheduler.requests[request]? = some entry → entry.pending ≠ [] →
    canBranch env m.scheduler request = false

theorem prepareNext_exhausts (now : Nat) (hso : (m.ledger []).Sound) :
    (prepareNext env now).Yields m (fun more after => more = false → Exhausted env after)
      Reported := by
  have hs := selectReady_eq env m.scheduler m.scheduler.ready
  simp only [prepareNext, yields_bind, yields_get]
  split
  · next ready selection =>
    rw [selection] at hs
    intro _ request entry active queued
    exact hs.2 request ((hso.readyQueued request).mpr ⟨entry, active, queued⟩)
  · next request ready selection =>
    rw [selection] at hs
    obtain ⟨-, stalled, others, queue, -⟩ := hs
    have hl : request ∈ m.scheduler.ready := by simp [queue]
    obtain ⟨⟨state, next, _ | ⟨queued, pending⟩⟩, active, hw⟩ := (hso.readyQueued request).mp hl
    · exact absurd rfl hw
    · have active : m.scheduler.requests[request]? = some ⟨state, next, queued :: pending⟩ := active
      simp only [active, yields_bind, yields_modify, yields_apply]
      split
      · exact ⟨_, rfl⟩
      · intro ha
        cases ha

theorem prepareMany_exhausts (now remaining : Nat) (hs : (m.ledger []).Sound) :
    (prepareMany env now remaining).Yields m
      (fun count after => count < remaining → Exhausted env after) Reported := by
  induction remaining generalizing m with
  | zero => exact nofun
  | succ remaining ih =>
    rw [prepareMany, yields_bind]
    refine ((prepareNext_exhausts env now hs).and ((follows_advances env).prepareNext now m)).mono ?_
      fun _ _ hst => hst.1
    rintro (_ | _) after ⟨he, hf⟩
    · exact fun _ => he rfl
    · exact ((ih (hs.reaches (hf.reaches hs))).mono
        (fun _ _ he hfe => he (Nat.lt_of_succ_lt_succ hfe)) fun _ _ => id).bind

theorem ensureReady_reported (m : Machine Ω W S B O) :
    ensureReady.Yields m (fun _ after => after = m) Reported := by
  rw [ensureReady, yields_bind, yields_get]
  split
  · exact rfl
  · exact ⟨_, rfl⟩

theorem cancelInternal_reported (request : RequestId) (cause : CancellationCause) (now : Nat)
    (m : Machine Ω W S B O) :
    (cancelInternal env request cause now).Yields m (fun _ _ => True) Reported := by
  rw [cancelInternal, yields_bind]
  refine (ensureReady_reported m).imp ?_
  rintro _ _ rfl
  simp only [yields_bind, yields_get]
  split
  · exact ⟨_, rfl⟩
  split
  · exact ⟨_, rfl⟩
  simp only [yields_bind, yields_apply]
  split
  · exact trivial
  · exact ⟨_, rfl⟩

theorem expireDeadlines_reported (now : Nat) (m : Machine Ω W S B O) :
    (expireDeadlines env now).Yields m (fun _ _ => True) Reported := by
  rw [expireDeadlines, yields_bind, yields_get]
  dsimp only
  generalize (expiredRequests now m.scheduler).toList = expired
  induction expired generalizing m with
  | nil => exact trivial
  | cons request rest ih =>
    exact ((cancelInternal_reported env request .deadline now m).mono (fun _ after _ => ih after)
      fun _ _ => id).bind

theorem prepareBounded_exhausts (limit now : Nat) (hs : (m.ledger []).Sound) :
    (prepareBounded env limit now).Yields m
      (fun count after => count < limit → Exhausted env after) Reported := by
  rw [prepareBounded, yields_bind]
  refine (ensureReady_reported m).imp ?_
  rintro _ m rfl
  split
  · exact ⟨_, rfl⟩
  rw [yields_bind]
  refine ((expireDeadlines_reported env now m).and ((follows_interrupts env).expireDeadlines now m)).mono ?_
    fun _ _ hst => hst.1
  rintro _ after ⟨-, hf⟩
  exact prepareMany_exhausts env now limit (hs.reaches (hf.reaches hs))

def Pass.prepares : Pass Ω W S B O → Option RequestId
  | .preparing _ m =>
      match selectReady env m.scheduler m.scheduler.ready.length m.scheduler.ready with
      | (none, _) => none
      | (some request, _) =>
          match m.scheduler.requests[request]? with
          | some { state, pending := queued :: _, .. } =>
              match describeAndBranch env m.scheduler.limits queued state m.world with
              | (.ok _, _) => some request
              | (.error _, _) => none
          | _ => none
  | _ => none

def Pass.waits (q : RequestId) : Pass Ω W S B O → Bool
  | .preparing _ m => q ∈ m.scheduler.ready && canBranch env m.scheduler q
  | .enqueuing _ m | .submitting _ m | .settling _ _ m => q ∈ m.scheduler.ready

/-- Watches whether `r` is prepared again while `q` waits; armed since `r` was prepared and `q` has
waited. -/
def watch (q r : RequestId) (armed : Bool) (pass : Pass Ω W S B O) : Option Bool :=
  if pass.prepares env = some r then
    if armed && pass.waits env q then none else some true
  else
    some (armed && pass.waits env q && pass.prepares env ≠ some q)

variable {env}

theorem pair_sublist_append {q r : RequestId} {front back : List RequestId}
    (hp : [r, q] <+ front ++ back) (hq : q ∉ back) : [r, q] <+ front := by
  obtain ⟨left, right, hs, hl, hr⟩ := sublist_append_iff.mp hp
  obtain rfl | ⟨others, last, rfl⟩ := right.eq_nil_or_concat
  · simpa [hs] using hl
  · have hsa : last = q := by simpa using congrArg List.getLast? hs.symm
    exact absurd (hr.subset (by simp [hsa])) hq

/-- Requests leave the ready queue, and those that stay keep their work. -/
def Thins (before after : Scheduler W S B O) : Prop :=
  after.ready <+ before.ready ∧
    ∀ id ∈ after.ready, queueOf after.requests id = queueOf before.requests id

def Orderly (s : Scheduler W S B O) : Prop :=
  s.ready.Nodup ∧ ∀ id ∈ s.ready, queueOf s.requests id ≠ [] ∧
    ∀ work ∈ queueOf s.requests id, work.id.request = id

variable {q r : RequestId} {s t u : Scheduler W S B O}

theorem Thins.refl (s : Scheduler W S B O) : Thins s s :=
  ⟨.refl _, fun _ _ => rfl⟩

theorem Thins.trans (hf : Thins s t) (hs : Thins t u) : Thins s u :=
  ⟨hs.1.trans hf.1, fun id hid => (hs.2 id hid).trans (hf.2 id (hs.1.subset hid))⟩

theorem Thins.orderly (ht : Thins s t) (ho : Orderly s) : Orderly t := by
  refine ⟨ht.1.nodup ho.1, fun id hid => ?_⟩
  rw [ht.2 id hid]
  exact ho.2 id (ht.1.subset hid)

theorem Thins.ending (hr : t.ready = s.ready.filter (· ≠ request))
    (hq : t.requests = s.requests.erase request) : Thins s t := by
  rw [Thins, hr, hq]
  refine ⟨filter_sublist, fun id hid => ?_⟩
  have ho : id ≠ request := fun hs => by simp [hs] at hid
  simp [queueOf, lookup_erase, ho]

theorem failRequest_thins (request : RequestId) (now : Nat) (m : Machine Ω W S B O) :
    Thins m.scheduler (failRequest env request now m).scheduler := by
  cases active : m.scheduler.requests[request]? with
  | none =>
    rw [failRequest_unknown env active now]
    exact .refl _
  | some entry =>
    obtain ⟨_, _, _, hf, -⟩ := failRequest_frame env active now
    rw [hf]
    exact .ending rfl rfl

theorem Settled.thins {now : Nat} {work : Submitted W B O} {completed : Bool}
    {kept : Option (Submitted W B O)} {after : Machine Ω W S B O}
    (hs : Settled env now work m completed kept after) : Thins m.scheduler after.scheduler := by
  cases hs with
  | kept | condemned | released | orphaned => exact .refl m.scheduler
  | published state _ _ _ active => exact ⟨.refl _, fun id _ => queueOf_setState active state id⟩
  | unpublished state _ _ _ active =>
    refine Thins.trans ?_ (failRequest_thins _ now _)
    exact ⟨.refl _, fun id _ => queueOf_setState active state id⟩
  | failed | refused => exact failRequest_thins _ now _

theorem settleAll_thins {α : Type} {settle : Settle Ω W S B O α}
    (he : ∀ item progress m, Thins m.scheduler (settle item progress m).2.scheduler)
    (items : List α) (now : Nat) (m : Machine Ω W S B O) :
    Thins m.scheduler (settleAll env settle items now m).2.scheduler := by
  have all : ∀ progress m, Thins m.scheduler (settleEach settle items progress m).2.scheduler := by
    induction items with
    | nil => exact fun _ m => .refl _
    | cons item rest ih => exact fun progress m => (he item progress m).trans (ih _ _)
  exact all {} (m.update fun s => { s with submitted := [] })

theorem settlePasses_quiet {α : Type} (settle : Settle Ω W S B O α)
    (view : α → Machine Ω W S B O → Submitted W B O × Bool)
    (items : List α) (progress : SchedulerProgress W O) (m : Machine Ω W S B O) :
    ∀ pass ∈ settlePasses settle view items progress m, pass.prepares env = none := by
  induction items generalizing progress m with
  | nil => simp [settlePasses]
  | cons item rest ih =>
    intro pass hl
    rcases mem_cons.mp hl with rfl | hl
    · rfl
    · exact ih _ _ pass hl

variable (env q r) in
/-- Along these passes `r` is not prepared again while `q` waits. -/
def Watched (points : List (Pass Ω W S B O)) (before after : Machine Ω W S B O) : Prop :=
  Orderly before.scheduler → Orderly after.scheduler ∧
    ∀ armed, (armed = true → ¬[r, q] <+ before.scheduler.ready) →
      ∃ next, points.foldlM (watch env q r) armed = some next ∧
        (next = true → ¬[r, q] <+ after.scheduler.ready)

variable {points : List (Pass Ω W S B O)}
  {m before after : Machine Ω W S B O}

theorem Thins.watched (ht : Thins before.scheduler after.scheduler)
    (hq : ∀ pass ∈ points, pass.prepares env = none) : Watched env q r points before after := by
  refine fun ho => ⟨ht.orderly ho, fun armed hb => ?_⟩
  have hw : ∃ next, points.foldlM (watch env q r) armed = some next ∧
      (next = true → armed = true) := by
    clear hb
    induction points generalizing armed with
    | nil => exact ⟨armed, rfl, id⟩
    | cons pass rest ih =>
      obtain ⟨hi, others⟩ := forall_mem_cons.mp hq
      obtain ⟨next, he, hk⟩ := ih others (armed && pass.waits env q)
      refine ⟨next, ?_, fun hn => by simpa using (Bool.and_eq_true _ _ ▸ hk hn).1⟩
      simpa [watch, hi] using he
  obtain ⟨next, he, hk⟩ := hw
  exact ⟨next, he, fun hn hp => hb (hk hn) (hp.trans ht.1)⟩

theorem watched_graded : Graded (Watched env q r) where
  nil _ := Thins.watched (.refl _) (by simp)
  append {first second before middle after} he hl ho := by
    obtain ⟨hh, he⟩ := he ho
    obtain ⟨hd, hl⟩ := hl hh
    refine ⟨hd, fun armed hb => ?_⟩
    obtain ⟨next, hen, hb⟩ := he armed hb
    obtain ⟨last, hs, hb⟩ := hl next hb
    exact ⟨last, by simp [hen, hs], hb⟩

theorem Orderly.insert (ho : Orderly s) {entry : Request W S}
    (hr : t.requests = s.requests.insert request entry) (hn : t.ready.Nodup)
    (others : ∀ id ∈ t.ready, id ≠ request → id ∈ s.ready)
    (own : request ∈ t.ready → entry.pending ≠ [] ∧
      ∀ work ∈ entry.pending, work.id.request = request) : Orderly t := by
  refine ⟨hn, fun id hid => ?_⟩
  by_cases hs : id = request
  · subst hs
    simpa [hr, queueOf] using own hid
  · have hk := ho.2 id (others id hid hs)
    simpa [hr, queueOf, lookup_insert, hs] using hk

theorem batchEntries_owned (request : RequestId) (work : List (W × Option Nat)) (first : Nat) :
    ∀ queued ∈ batchEntries request first work, queued.id.request = request := by
  induction work generalizing first with
  | nil => simp [batchEntries]
  | cons item rest ih => simpa [batchEntries] using ih (first + 1)

theorem watched_enqueue {entry : Request W S} {next : UInt64}
    (active : m.scheduler.requests[request]? = some entry) (work : List (W × Option Nat))
    (hr : after.scheduler.requests = m.scheduler.requests.insert request { entry with
      next, pending := entry.pending ++ batchEntries request entry.next.toNat work })
    (hq : after.scheduler.ready = if entry.pending.isEmpty && work.length ≠ 0 then
      m.scheduler.ready ++ [request] else m.scheduler.ready) :
    Watched env q r [.enqueuing request m] m after := by
  intro ho
  have queue : queueOf m.scheduler.requests request = entry.pending := by simp [queueOf, active]
  have how := batchEntries_owned request work entry.next.toNat
  by_cases ha : (entry.pending.isEmpty && work.length ≠ 0) = true
  · rw [if_pos ha] at hq
    simp only [Bool.and_eq_true, List.isEmpty_iff, decide_eq_true_eq] at ha
    have hf : request ∉ m.scheduler.ready := fun hl => (ho.2 request hl).1 (queue.trans ha.1)
    refine ⟨ho.insert hr ?_ ?_ fun _ => ⟨?_, ?_⟩, fun armed hb => ⟨_, rfl, fun hw => ?_⟩⟩
    · rw [hq]
      exact ho.1.append (nodup_singleton _) (disjoint_singleton.mpr hf)
    · intro id hl hot
      simpa [hq, hot] using hl
    · refine ne_nil_of_length_pos ?_
      simp [batchEntries_length, pos_of_ne_zero ha.2]
    · simpa [ha.1] using how
    · simp only [Bool.and_eq_true, waits, decide_eq_true_eq] at hw
      rw [hq]
      refine fun hp => hb hw.1.1 (pair_sublist_append hp ?_)
      exact fun hs => hf (mem_singleton.mp hs ▸ hw.1.2)
  · rw [if_neg ha] at hq
    refine ⟨ho.insert hr (hq ▸ ho.1) (fun id hl _ => hq ▸ hl) fun hl => ?_,
      fun armed hb => ⟨_, rfl, fun hw => ?_⟩⟩
    · have own := ho.2 request (hq ▸ hl)
      rw [queue] at own
      exact ⟨by simp [own.1], fun work hl => (mem_append.mp hl).elim (own.2 work) (how work)⟩
    · simp only [Bool.and_eq_true] at hw
      exact hq ▸ hb hw.1.1

/-- The selected request comes before those that wait behind it and can branch. -/
theorem selectReady_first {ready : List RequestId}
    (selection : selectReady env s s.ready.length s.ready = (some request, ready)) :
    ∃ stalled others, s.ready = stalled ++ request :: others ∧ ready = others ++ stalled ∧
      ∀ id, canBranch env s id = true → id ∉ stalled := by
  have hs := selectReady_eq env s s.ready
  rw [selection] at hs
  obtain ⟨-, stalled, others, queue, hr, hbl⟩ := hs
  exact ⟨stalled, others, queue, hr, fun id hb hl => Bool.false_ne_true ((hbl id hl).symm.trans hb)⟩

section Taken

variable {request : RequestId} {stalled others : List RequestId} {state : S} {next : UInt64}
  {queued : Queued W} {pending : List (Queued W)}
  (queue : s.ready = stalled ++ request :: others)
  (hr : t.requests = s.requests.insert request ⟨state, next, pending⟩)
  (hq : t.ready = if pending.isEmpty then others ++ stalled else others ++ stalled ++ [request])

include queue hr hq

theorem Orderly.taken (ho : Orderly s)
    (active : s.requests[request]? = some ⟨state, next, queued :: pending⟩) : Orderly t := by
  have ht : (others ++ stalled ++ [request]).Perm s.ready := by
    rw [queue, append_assoc]
    exact perm_append_comm.trans (.of_eq (by simp))
  have hf : t.ready <+ others ++ stalled ++ [request] := by
    rw [hq]
    split
    · exact sublist_append_left _ _
    · exact .refl _
  have hd := ht.nodup_iff.mpr ho.1
  refine ho.insert hr (hf.nodup hd) (fun id hl _ => ht.subset (hf.subset hl)) ?_
  intro hl
  have own := ho.2 request (by simp [queue])
  simp only [queueOf, active] at own
  refine ⟨fun (he : pending = []) => ?_, fun work hla => own.2 work (mem_cons_of_mem _ hla)⟩
  rw [hq, if_pos (by simp [he])] at hl
  exact disjoint_of_nodup_append hd hl (by simp)

omit hr in
/-- A request that is not taken keeps its place behind those that stood before it. -/
theorem pair_of_taken (orderly : Orderly s) (pair : [r, q] <+ t.ready) (other : q ≠ request) :
    r ≠ request ∧ (q ∉ stalled → [r, q] <+ s.ready) := by
  have kept : [r, q] <+ others ++ stalled := by
    rw [hq] at pair
    split at pair
    · exact pair
    · exact pair_sublist_append pair (by simpa using other)
  constructor
  · rintro rfl
    have listed : r ∈ others ++ stalled := kept.subset (by simp)
    have distinct := orderly.1
    rw [queue] at distinct
    simp only [nodup_append, nodup_cons, mem_append] at distinct listed
    rcases listed with after | before
    · exact distinct.2.1.1 after
    · exact distinct.2.2 r before r (by simp) rfl
  · intro free
    rw [queue]
    exact ((pair_sublist_append kept free).cons request).trans (sublist_append_right _ _)

end Taken

section Preparing

variable {request : RequestId} {ready : List RequestId} {state : S} {next : UInt64}
  {queued : Queued W} {pending : List (Queued W)}
  (selection : selectReady env m.scheduler m.scheduler.ready.length m.scheduler.ready =
    (some request, ready))
  (active : m.scheduler.requests[request]? = some ⟨state, next, queued :: pending⟩)

include selection active

theorem watched_prepare (hot : q ≠ r) {descriptor : List UInt32} {branch : B} {world : Ω}
    (hd : describeAndBranch env m.scheduler.limits queued state m.world =
      (.ok (descriptor, branch), world)) (now : Nat)
    (hr : after.scheduler.requests = m.scheduler.requests.insert request ⟨state, next, pending⟩)
    (hq : after.scheduler.ready = if pending.isEmpty then ready else ready ++ [request]) :
    Watched env q r [.preparing now m] m after := by
  intro ho
  obtain ⟨stalled, others, queue, rfl, hf⟩ := selectReady_first selection
  have hpr : (preparing now m).prepares env = some request := by
    simp [prepares, selection, active, hd]
  refine ⟨ho.taken queue hr hq active, fun armed hb => ?_⟩
  have hwa : (preparing now m).waits env q = true →
      q ∈ m.scheduler.ready ∧ q ∉ stalled := fun hw => by
    simp only [waits, Bool.and_eq_true, decide_eq_true_eq] at hw
    exact ⟨hw.1, hf q hw.2⟩
  rw [foldlM_cons, watch, hpr]
  by_cases hs : request = r
  · subst hs
    by_cases hp : (armed && (preparing now m).waits env q) = true
    · -- The armed request stands behind the taken one, so it cannot have been able to branch.
      simp only [Bool.and_eq_true] at hp
      obtain ⟨hl, hu⟩ := hwa hp.2
      refine absurd ?_ (hb hp.1)
      rw [queue] at hl ⊢
      have hla : q ∈ others := by simpa [hu, hot] using hl
      exact ((singleton_sublist.mpr hla).cons_cons request).trans (sublist_append_right _ _)
    · exact ⟨true, by simp [hp], fun _ hpa => (pair_of_taken queue hq ho hpa hot).1 rfl⟩
  · refine ⟨armed && (preparing now m).waits env q && some request ≠ some q, by simp [hs],
      fun hw hpa => ?_⟩
    simp only [Bool.and_eq_true, decide_eq_true_eq, ne_eq, Option.some.injEq] at hw
    exact hb hw.1.1 ((pair_of_taken queue hq ho hpa (Ne.symm hw.2)).2 (hwa hw.1.2).2)

theorem watched_reject {error : SchedulerError} {world : Ω}
    (hd : describeAndBranch env m.scheduler.limits queued state m.world = (.error error, world))
    (now : Nat) {taken : Machine Ω W S B O}
    (hr : taken.scheduler.requests = m.scheduler.requests.insert request ⟨state, next, pending⟩)
    (hq : taken.scheduler.ready = if pending.isEmpty then ready else ready ++ [request]) :
    Watched env q r [.preparing now m] m (failRequest env queued.id.request now taken) := by
  intro ho
  obtain ⟨stalled, others, queue, rfl, hfr⟩ := selectReady_first selection
  have own : queued.id.request = request := by
    have own := (ho.2 request (by simp [queue])).2
    simp only [queueOf, active] at own
    exact own queued (by simp)
  have ht : Thins taken.scheduler (failRequest env request now taken).scheduler :=
    failRequest_thins request now taken
  obtain ⟨_, _, _, hf, -⟩ := failRequest_frame env
    (show taken.scheduler.requests[request]? = some ⟨state, next, pending⟩ by
      simp [hr]) now
  rw [own]
  refine ⟨ht.orderly (ho.taken queue hr hq active), fun armed hb =>
    ⟨armed && (preparing now m).waits env q, ?_, fun hw hp => ?_⟩⟩
  · simp [watch, prepares, selection, active, hd]
  · simp only [waits, Bool.and_eq_true] at hw
    have hot : q ≠ request := by
      have hl := hp.subset (show q ∈ [r, q] by simp)
      rw [hf] at hl
      exact of_decide_eq_true (mem_filter.mp hl).2
    exact hb hw.1 ((pair_of_taken queue hq ho (hp.trans ht.1) hot).2 (hfr q hw.2.2))

end Preparing

theorem watched_tracks (ho : q ≠ r) : Tracks env (Watched env q r) where
  toGraded := watched_graded
  world m _ := Thins.watched (.refl m.scheduler) (by simp)
  fence _ m := Thins.watched (.refl m.scheduler) (by simp)
  poison reason now m := by
    refine Thins.watched ?_ (by simp)
    rcases poison_frame env reason now m with hsa | ⟨_, _, _, _, _, hf, -⟩
    · rw [hsa]
      exact .refl _
    · rw [hf]
      exact ⟨nil_sublist _, by nofun⟩
  cancel {m request entry} _ cause now := by
    obtain ⟨_, _, _, _, _, _, _, _, _, hf, rfl, -⟩ :=
      cancelEntry_frame env request entry cause now m
    rw [hf]
    exact Thins.watched (.ending rfl rfl) (by simp)
  edit _ hsa _ := Thins.watched ⟨.refl _, fun id _ => hsa id⟩ (by simp)
  forget m _ := Thins.watched (.refl m.scheduler) (by simp)
  enqueue active work _ _ := watched_enqueue active work rfl rfl
  idle _ m := Thins.watched (.refl m.scheduler) (by simp [prepares])
  finish {m request entry} _ _ := by
    obtain ⟨_, _, _, hf, -⟩ := withdrawRequest_frame env request entry .abandoned m
    rw [hf]
    exact Thins.watched (.ending rfl rfl) (by simp)
  stall {m ready} selection now := by
    have hs := selectReady_eq env m.scheduler m.scheduler.ready
    rw [selection] at hs
    obtain ⟨rfl, -⟩ := hs
    exact Thins.watched (.refl m.scheduler) (by simp [prepares, selection])
  prepare selection active _ _ _ hd now := watched_prepare selection active ho hd now rfl rfl
  reject selection active _ _ hd now := watched_reject selection active hd now rfl rfl
  lost {m request ready} selection hi now := by
    refine Thins.watched (.refl _) (forall_mem_singleton.mpr ?_)
    simp only [prepares, selection]
    rcases active : m.scheduler.requests[request]? with _ | ⟨_, _, _ | _⟩
    · rfl
    · rfl
    · simp [queueOf, active] at hi
  submit _ _ _ _ _ _ _ := Thins.watched (.refl _) (by simp [prepares])
  refuse _ _ _ _ _ _ := Thins.watched (failRequest_thins _ _ _) (by simp [prepares])
  drained count m := by
    refine Thins.watched ?_ (by simp)
    split <;> exact .refl _
  poll now m := Thins.watched
    (settleAll_thins (fun item progress m => (settleLocal_settled now item progress m).thins) _ now m)
    (settlePasses_quiet _ _ _ _ _)
  resolve now m resolutions _ := Thins.watched
    (settleAll_thins (fun item progress m => (settleDistributed_settled now item progress m).thins) _ now m)
    (settlePasses_quiet _ _ _ _ _)

theorem foldlM_watch_armed {between : List (Pass Ω W S B O)}
    (hw : ∀ pass ∈ between, pass.waits env q = true)
    (hp : ∀ pass ∈ between, pass.prepares env ≠ some q) :
    between.foldlM (watch env q r) true = none ∨ between.foldlM (watch env q r) true = some true := by
  induction between with
  | nil => exact .inr rfl
  | cons pass rest ih =>
    rw [forall_mem_cons] at hw hp
    rw [foldlM_cons, watch, hw.1]
    split
    · exact .inl rfl
    · simpa [hp.1] using ih hw.2 hp.2

/-- What holds of the ready queue of every reachable scheduler, whatever is called next. -/
theorem ready_queue_conserves_work (hr : Reachable env m) :
    (∀ request, m.scheduler.ready.count request =
      if queueOf m.scheduler.requests request = [] then 0 else 1) ∧
    (∀ (any : Machine Ω W S B O) limit now, ∃ fuel, ∀ more, fuel ≤ more →
      Agrees ((prepareLoop env limit now more 0 0).outcome any)
        ((prepareMany env now limit >>= fun count => pure (some count)).outcome any)) ∧
    (∀ limit now, (prepareBounded env limit now).Yields m
      (fun count after => count < limit → Exhausted env after) Reported) ∧
    ∀ commands early first between second late r q,
      runPasses env m commands = early ++ first :: (between ++ second :: late) →
      first.prepares env = some r → second.prepares env = some r → q ≠ r →
      (∀ pass ∈ between ++ [second], pass.waits env q = true) →
      ∃ pass ∈ between, pass.prepares env = some q := by
  have hs := hr.sound
  have hon : ∀ request, request ∈ m.scheduler.ready ↔ queueOf m.scheduler.requests request ≠ [] := by
    intro request
    rw [show request ∈ m.scheduler.ready ↔ _ from hs.readyQueued request]
    cases active : m.scheduler.requests[request]? <;> simp [queueOf, active, Machine.ledger]
  refine ⟨fun request => ?_, fun any limit now => ?_, fun limit now =>
    prepareBounded_exhausts env limit now hs, ?_⟩
  · split
    · next hi => exact count_eq_zero.mpr fun hl => (hon request).mp hl hi
    · next hwa => exact count_eq_one_of_mem hs.readyDistinct ((hon request).mpr hwa)
  · simpa using prepareLoop_agrees env now (zero_add limit) any
  · intro commands early first between second late r q ht hpr ha hot hw
    by_contra hp
    simp only [not_exists, not_and] at hp
    have hor : Orderly m.scheduler := by
      refine ⟨hs.readyDistinct, fun id hl => ⟨(hon id).mp hl, ?_⟩⟩
      cases active : m.scheduler.requests[id]? with
      | none => simp [queueOf, active]
      | some entry =>
        simpa [queueOf, active] using fun work hl => (hs.queueOwned id entry active work hl).1
    obtain ⟨next, he, -⟩ := ((watched_tracks hot).run m commands hor).2 false (by simp)
    have hss : ∀ armed, watch env q r armed first = none ∨ watch env q r armed first = some true := by
      intro armed
      rw [watch, if_pos hpr]
      split <;> simp
    have hs2 : watch env q r true second = none := by simp [watch, ha, hw second]
    have armed : between.foldlM (watch env q r) true = none ∨ _ :=
      foldlM_watch_armed (fun pass hl => hw pass (by simp [hl])) hp
    rw [ht, foldlM_append] at he
    cases ho : early.foldlM (watch env q r) false with
    | none => simp [ho] at he
    | some before =>
      rcases hss before with hst | hst <;> rcases armed with hk | hk <;>
        simp [ho, hst, hk, hs2, foldlM_append] at he

def alternatingRun : List (Command Unit Bool Nat) :=
  [.register ⟨0⟩ 0, .register ⟨1⟩ 0, .enqueueBatch ⟨0⟩ [(true, none), (true, none)],
    .enqueueBatch ⟨1⟩ [(true, none), (true, none)], .prepareBounded 3 0]

/-- The second request is prepared between the two preparations of the first. -/
theorem ready_queue_conserves_work_alternating :
    (runPasses parallelEnvironment parallelStart alternatingRun).map (·.prepares parallelEnvironment) =
      [none, none, some ⟨0⟩, some ⟨1⟩, some ⟨0⟩] ∧
    ∃ pass ∈ runPasses parallelEnvironment parallelStart alternatingRun,
      pass.prepares parallelEnvironment = some ⟨1⟩ := by
  have hr : Reachable parallelEnvironment parallelStart :=
    .new () (show Scheduler.new ⟨2, 4, 2, 2, 2, 8⟩ = .ok _ from rfl)
  have ht : runPasses parallelEnvironment parallelStart alternatingRun =
    [_, _] ++ _ :: ([_] ++ [_]) := rfl
  obtain ⟨pass, hl, hp⟩ := (ready_queue_conserves_work hr).2.2.2 alternatingRun
    _ _ _ _ _ ⟨0⟩ ⟨1⟩ ht rfl rfl (by decide) (by decide)
  rw [ht]
  exact ⟨by decide, pass, mem_append_right _ (mem_cons_of_mem _ (mem_append_left _ hl)), hp⟩

end Eredu.Scheduling
