import Eredu.Scheduling.Fencing
import Eredu.Scheduling.Report

/-!
# The telemetry accounts for accepted work

Every accepted item is held by the scheduler or was counted in one terminal
counter when it left. The exception is an orphan: a publishable submission that a
poll finds complete after an earlier entry of the same poll failed its request.
Its branch is discarded and its place released, but no counter takes note of it.
-/

namespace Eredu.Scheduling

open Std Effect Ledger List Scheduler Pass Disposition Machine

variable {Ω W S B O : Type}

def Pass.isOrphan : Pass Ω W S B O → Bool
  | .settling work completed m =>
      completed && work.disposition.isPublish && !m.scheduler.requests.contains work.id.request
  | _ => false

def orphans (points : List (Pass Ω W S B O)) : Nat :=
  points.countP (·.isOrphan)

@[simp] theorem orphans_enqueuing (request : RequestId)
    (m : Machine Ω W S B O) : orphans [enqueuing request m] = 0 := rfl

@[simp] theorem orphans_preparing (now : Nat) (m : Machine Ω W S B O) :
    orphans [preparing now m] = 0 := rfl

@[simp] theorem orphans_submitting (now : Nat) (m : Machine Ω W S B O) :
    orphans [submitting now m] = 0 := rfl

theorem orphans_append (first second : List (Pass Ω W S B O)) :
    orphans (first ++ second) = orphans first + orphans second :=
  countP_append

def Submitted.isCondemned (work : Submitted W B O) : Bool :=
  work.disposition = .fail

namespace Scheduler

variable (s : Scheduler W S B O) (outside : List (Submitted W B O))

/-- No counter of accepted or departed work has reached its largest value. -/
def Unsaturated : Prop :=
  s.submittedWork < u64Max ∧ s.completedWork < u64Max ∧ s.failedWork < u64Max ∧
    s.discardedWork < u64Max ∧ s.abandonedReleasedWork < u64Max

/-- The accepted work, with the condemned submissions twice: they were counted as failed and are
still held. `outside` are the submissions a completion loop has taken out. -/
def entered : Nat :=
  s.submittedWork + s.submitted.countP (·.isCondemned) + outside.countP (·.isCondemned)

/-- The work that was counted when it left and the work that is held. -/
def explained : Nat :=
  s.completedWork + s.failedWork + s.discardedWork + s.abandonedReleasedWork +
    (total queueLength s.requests + s.prepared.length + s.submitted.length + outside.length)

end Scheduler

/-- Between two schedulers `lost` items left without being counted. -/
structure Balances (lost : Nat) (before : Scheduler W S B O)
    (outside : List (Submitted W B O)) (after : Scheduler W S B O)
    (outside' : List (Submitted W B O)) : Prop where
  unsaturated : after.Unsaturated → before.Unsaturated
  balance : after.Unsaturated →
    after.entered outside' + before.explained outside =
      before.entered outside + after.explained outside' + lost

variable {before middle after s : Scheduler W S B O}
  {outside outside' outside'' : List (Submitted W B O)}

theorem Balances.trans {first second : Nat} (he : Balances first before outside middle outside')
    (hl : Balances second middle outside' after outside'') :
    Balances (first + second) before outside after outside'' where
  unsaturated hc := he.unsaturated (hl.unsaturated hc)
  balance hc := by
    have := he.balance (hl.unsaturated hc)
    have := hl.balance hc
    omega

/-- The account reads the counters, the queues and the submitted list only. -/
theorem Balances.refl (s : Scheduler W S B O)
    (outside : List (Submitted W B O)) : Balances 0 s outside s outside :=
  ⟨id, fun _ => rfl⟩

theorem saturatingAdd_exact {left right : Nat} (hb : saturatingAdd left right < u64Max) :
    saturatingAdd left right = left + right := by
  unfold saturatingAdd at hb ⊢
  omega

theorem lt_of_saturatingAdd {left right : Nat} (hb : saturatingAdd left right < u64Max) :
    left < u64Max := by
  have := saturatingAdd_exact hb
  omega

variable (selected : RequestId → Bool)

theorem countP_abandonPublished (now : Nat) (submitted : List (Submitted W B O)) :
    (submitted.map fun work =>
        if selected work.id.request && work.disposition.isPublish then
          { work with disposition := .abandon now } else work).countP (·.isCondemned) =
      submitted.countP (·.isCondemned) := by
  rw [countP_map]
  refine countP_congr fun work _ => ?_
  dsimp only [Function.comp]
  split
  · next ha =>
    simp only [Bool.and_eq_true, isPublish_iff] at ha
    simp [Submitted.isCondemned, ha.2]
  · exact .rfl

theorem abandonPublished_balances (now : Nat)
    (s : Scheduler W S B O) (outside : List (Submitted W B O)) :
    Balances 0 s outside (s.abandonPublished selected now) outside := by
  refine ⟨id, fun _ => ?_⟩
  simp only [entered, explained, abandonPublished, countP_abandonPublished, length_map]
  omega

theorem without_balances {request : RequestId} {entry : Request W S}
    (ha : s.requests[request]? = some entry) (lifecycle : TreeMap WorkId WorkLifecycle) :
    Balances 0 s outside (s.without request entry lifecycle s.failedWork) outside := by
  refine ⟨fun ⟨hf, hs, ht, hd, hl⟩ => ⟨hf, hs, ht, lt_of_saturatingAdd hd, hl⟩, ?_⟩
  rintro ⟨-, -, -, hd, -⟩
  have he := saturatingAdd_exact hd
  have hq := total_erase queueLength ha
  have hp := length_eq_length_filter_add (l := s.prepared)
    fun work => decide (work.id.request = request)
  simp only [entered, explained, without, unsubmitted, queueLength, decide_not] at he hq hp ⊢
  omega

variable {env : Environment Ω W S B O}

theorem failRequest_balances (hr : Reliable env) (request : RequestId) (now : Nat)
    (m : Machine Ω W S B O) :
    Balances 0 m.scheduler outside (failRequest env request now m).scheduler outside := by
  cases ha : m.scheduler.requests[request]? with
  | none =>
    rw [failRequest_unknown env ha now]
    exact .refl _ _
  | some entry =>
    obtain ⟨lifecycle, failedWork, world, hf, hc⟩ := failRequest_frame env ha now
    rw [hf, hc hr]
    have he := (without_balances ha lifecycle).trans
      (abandonPublished_balances (· = request) now _ outside)
    exact ⟨he.unsaturated, he.balance⟩

variable {m : Machine Ω W S B O} {lost : Nat}

theorem Balances.failing (hr : Reliable env) {request : RequestId} {now : Nat}
    (hl : Balances lost before outside m.scheduler outside') :
    Balances lost before outside (failRequest env request now m).scheduler outside' :=
  hl.trans (failRequest_balances hr request now m)

def Scheduler.departed (s : Scheduler W S B O) : Nat :=
  s.completedWork + s.failedWork + s.discardedWork + s.abandonedReleasedWork

variable {kept : Option (Submitted W B O)} {work : Submitted W B O}

/-- A settled entry leaves the queues and the submitted list alone: what matters is whether it stays,
whether it was or becomes condemned, and how many counters took note. -/
theorem Balances.settles (others : List (Submitted W B O))
    (hq : total queueLength after.requests = total queueLength before.requests)
    (hp : after.prepared = before.prepared) (hs : after.submitted = before.submitted)
    (ha : after.submittedWork = before.submittedWork) (hu : after.Unsaturated → before.Unsaturated)
    (hc : after.Unsaturated →
      after.departed + kept.toList.length + (if work.isCondemned then 1 else 0) + lost =
        before.departed + 1 + kept.toList.countP (·.isCondemned)) :
    Balances lost before (work :: others) after (kept.toList ++ others) where
  unsaturated := hu
  balance hco := by
    have hc := hc hco
    simp only [entered, explained, departed, countP_cons,
      countP_append, length_append, length_cons, hp, hs,
      ha] at hc ⊢
    omega

theorem Settled.balances (hr : Reliable env) {now : Nat}
    {m settled : Machine Ω W S B O} {completed : Bool}
    (hs : Settled env now work m completed kept settled) (others : List (Submitted W B O)) :
    Balances (if (settling work completed m).isOrphan then 1 else 0) m.scheduler
      (work :: others) settled.scheduler (kept.toList ++ others) := by
  have hrd {entry : Request W S} (state : S)
      (hac : m.scheduler.requests[work.id.request]? = some entry) :
      total queueLength (m.scheduler.requests.insert work.id.request { entry with state }) =
        total queueLength m.scheduler.requests := by
    have hi := total_insert queueLength { entry with state } hac
    simp only [queueLength] at hi
    omega
  have hpl (hk : work.disposition ≠ .fail) : work.isCondemned = false := decide_eq_false hk
  cases hs with
  | kept world =>
    simp only [isOrphan, Bool.false_and, Bool.false_eq_true]
    exact .refl _ _
  | condemned lifecycle world hk =>
    refine Balances.settles others rfl rfl rfl rfl
      (fun hu => ⟨hu.1, hu.2.1, lt_of_saturatingAdd hu.2.2.1, hu.2.2.2⟩) ?_
    rintro ⟨-, -, hg, -⟩
    have ha := saturatingAdd_exact hg
    simp [departed, isOrphan, hk, Submitted.isCondemned] at ha ⊢
    omega
  | released lifecycle failedWork last longest world hca hc =>
    refine Balances.settles others rfl rfl rfl rfl
      (fun hu => ⟨hu.1, hu.2.1, hc hr ▸ hu.2.2.1, hu.2.2.2.1,
        lt_of_saturatingAdd hu.2.2.2.2⟩) ?_
    rintro ⟨-, -, -, -, hg⟩
    have ha := saturatingAdd_exact hg
    have hk := hpl (by simp [hca])
    simp [departed, isOrphan, hk, hca, isPublish, hc hr] at ha ⊢
    omega
  | orphaned lifecycle failedWork world hp hgo hc =>
    refine Balances.settles others rfl rfl rfl rfl
      (fun hu => ⟨hu.1, hu.2.1, hc hr ▸ hu.2.2.1, hu.2.2.2⟩) fun _ => ?_
    have hk := hpl (by simp [hp])
    simp [departed, isOrphan, hk, hp, isPublish,
      TreeMap.contains_eq_isSome_getElem?, hgo, hc hr]
  | @published entry state lifecycle world history hac hp =>
    refine Balances.settles others (hrd state hac) rfl rfl rfl
      (fun hu => ⟨hu.1, lt_of_saturatingAdd hu.2.1, hu.2.2⟩) ?_
    rintro ⟨-, hg, -⟩
    have ha := saturatingAdd_exact hg
    have hk := hpl (by simp [hp])
    simp [departed, isOrphan, hk, TreeMap.contains_eq_isSome_getElem?, hac] at ha ⊢
    omega
  | @unpublished entry state lifecycle world history hac hp =>
    refine Balances.failing hr (Balances.settles others (hrd state hac) rfl rfl rfl
      (fun hu => ⟨hu.1, hu.2.1, lt_of_saturatingAdd hu.2.2.1, hu.2.2.2⟩) ?_)
    rintro ⟨-, -, hg, -⟩
    have ha := saturatingAdd_exact hg
    have hk := hpl (by simp [hp])
    simp [departed, isOrphan, hk, TreeMap.contains_eq_isSome_getElem?, hac] at ha ⊢
    omega
  | failed lifecycle world hco =>
    refine Balances.failing hr (Balances.settles others rfl rfl rfl rfl id fun _ => ?_)
    simp [departed, isOrphan, Submitted.isCondemned, hco, isPublish]
  | refused lifecycle world hk =>
    refine Balances.failing hr (Balances.settles others rfl rfl rfl rfl
      (fun hu => ⟨hu.1, hu.2.1, lt_of_saturatingAdd hu.2.2.1, hu.2.2.2⟩) ?_)
    rintro ⟨-, -, hg, -⟩
    have ha := saturatingAdd_exact hg
    simp [departed, isOrphan, hpl hk] at ha ⊢
    omega

theorem Balances.perm {others others' : List (Submitted W B O)}
    (hb : Balances lost before outside after outside') (hf : outside.Perm others)
    (hs : outside'.Perm others') : Balances lost before others after others' where
  unsaturated := hb.unsaturated
  balance hc := by
    have hba := hb.balance hc
    simpa only [entered, explained, hf.countP_eq, hs.countP_eq,
      hf.length_eq, hs.length_eq] using hba

section Settling

variable {α : Type} (settle : Settle Ω W S B O α)
  (view : α → Machine Ω W S B O → Submitted W B O × Bool) {entry : α → Submitted W B O}
  (hr : ∀ item m, (view item m).1 = entry item)
  (he : ∀ item progress m others,
    Balances (if (settling (entry item) (view item m).2 m).isOrphan then 1 else 0)
      m.scheduler (entry item :: others) (settle item progress m).2.scheduler
      ((settle item progress m).1.1.toList ++ others))
include hr he

/-- A completion loop loses its orphans and nothing else. -/
theorem settleEach_balances (items : List α) (progress : SchedulerProgress W O)
    (m : Machine Ω W S B O) (others : List (Submitted W B O)) :
    Balances (orphans (settlePasses settle view items progress m)) m.scheduler
      (items.map entry ++ others) (settleEach settle items progress m).2.scheduler
      ((settleEach settle items progress m).1.1 ++ others) := by
  induction items generalizing progress m others with
  | nil => exact .refl _ _
  | cons item rest ih =>
    have hf := he item progress m (rest.map entry ++ others)
    have hl := ih (settle item progress m).1.2 (settle item progress m).2
      ((settle item progress m).1.1.toList ++ others)
    -- The retained entry moves behind the entries that are still to be settled.
    have hm : (rest.map entry ++ ((settle item progress m).1.1.toList ++ others)).Perm
        ((settle item progress m).1.1.toList ++ (rest.map entry ++ others)) := by
      simp only [← append_assoc]
      exact perm_append_comm.append_right others
    have hb := hf.trans (hl.perm hm (List.Perm.refl _))
    have hp : orphans (settlePasses settle view (item :: rest) progress m) =
        (if (settling (entry item) (view item m).2 m).isOrphan then 1 else 0) +
          orphans (settlePasses settle view rest (settle item progress m).1.2
            (settle item progress m).2) := by
      rw [settlePasses, orphans, countP_cons, hr, add_comm]
      rfl
    rw [hp]
    refine hb.perm (List.Perm.refl _) ?_
    rw [← append_assoc]
    exact perm_append_comm.append_right others

theorem settleAll_balances (hl : ∀ item progress m, Lowers m (settle item progress m).2)
    {items : List α}
    (hc : items.map entry = m.scheduler.submitted) (now : Nat) :
    Balances (orphans (settlePasses settle view items {}
        (m.update fun s => { s with submitted := [] }))) m.scheduler []
      (settleAll env settle items now m).2.scheduler [] := by
  have hlo := settleEach_balances settle view hr he items {}
    (m.update fun s => { s with submitted := [] }) []
  have ht := (settleEach_lowers hl items {}
    (m.update fun s => { s with submitted := [] })).1.submitted
  unfold settleAll
  generalize settleEach settle items {} _ = result at hlo ht ⊢
  obtain ⟨⟨retained, progress⟩, settled⟩ := result
  have ht : settled.scheduler.submitted = [] := length_eq_zero_iff.mp ht
  have hd : Balances 0 m.scheduler [] { m.scheduler with submitted := [] } (items.map entry) := by
    refine ⟨id, fun _ => ?_⟩
    simp only [entered, explained, hc]
    omega
  have ha : Balances 0 settled.scheduler retained
      { settled.scheduler with submitted := retained } [] := by
    refine ⟨id, fun _ => ?_⟩
    simp only [entered, explained, ht, length_nil]
    omega
  have hw := hd.trans ((hlo.perm (append_nil _ ▸ .refl _)
    (append_nil _ ▸ .refl _)).trans (ha.trans (abandonPublished_balances
      (fun request => !settled.scheduler.requests.contains request) now _ [])))
  rw [zero_add] at hw
  exact ⟨hw.unsaturated, hw.balance⟩

end Settling

/-- Along these passes the orphans are lost and nothing else. -/
def Conserves (points : List (Pass Ω W S B O)) (before after : Machine Ω W S B O) : Prop :=
  Balances (orphans points) before.scheduler [] after.scheduler []

theorem Balances.of_same {before after : Scheduler W S B O}
    (hq : total queueLength after.requests = total queueLength before.requests)
    (hp : after.prepared = before.prepared) (hs : after.submitted = before.submitted)
    (ha : after.submittedWork = before.submittedWork)
    (hc : (after.completedWork, after.failedWork, after.discardedWork,
        after.abandonedReleasedWork) =
      (before.completedWork, before.failedWork, before.discardedWork,
        before.abandonedReleasedWork)) : Balances 0 before [] after [] := by
  simp only [Prod.mk.injEq] at hc
  refine ⟨fun hco => ?_, fun _ => ?_⟩
  · simpa only [Scheduler.Unsaturated, ha, hc] using hco
  · simp only [entered, explained, hp, hs, ha, hc]
    omega

theorem ended_balances (now : Nat) (s : Scheduler W S B O)
    (terminal : TreeMap RequestId RequestStatus) (lifecycle : TreeMap WorkId WorkLifecycle)
    (text : String) : Balances 0 s [] (s.ended now terminal lifecycle s.failedWork text) [] := by
  let emptied : Scheduler W S B O := { s with
    requests := ∅
    ready := []
    prepared := []
    lifecycle
    acceptedWork := s.acceptedWork - (s.queuedIds.length + s.prepared.length)
    discardedWork := saturatingAdd s.discardedWork (s.queuedIds.length + s.prepared.length) }
  have hd : Balances 0 s [] emptied [] := by
    refine ⟨fun ⟨h₁, h₂, h₃, hg, h₅⟩ => ⟨h₁, h₂, h₃, lt_of_saturatingAdd hg, h₅⟩, ?_⟩
    rintro ⟨-, -, -, hg, -⟩
    have ha := saturatingAdd_exact hg
    have hn : total queueLength (∅ : TreeMap RequestId (Request W S)) = 0 := total_eq_zero (by simp)
    simp only [emptied, entered, explained, length_queuedIds, length_nil] at ha ⊢
    omega
  have he := hd.trans (abandonPublished_balances (fun _ => true) now emptied [])
  exact ⟨he.unsaturated, he.balance⟩

theorem conserves_tracks (hr : Reliable env) : Tracks env Conserves where
  nil m := .refl _ _
  append hfi hs := by
    unfold Conserves
    rw [orphans_append]
    exact hfi.trans hs
  world m world := .refl _ _
  fence reason m := .of_same rfl rfl rfl rfl rfl
  poison reason now m := by
    rcases poison_frame env reason now m with
      hsa | ⟨terminal, lifecycle, failedWork, text, _, hf, hc⟩
    · rw [hsa]
      exact .refl _ _
    · rw [hf, hc hr]
      have he := ended_balances now m.scheduler terminal lifecycle text
      exact ⟨he.unsaturated, he.balance⟩
  cancel {m request entry} ha cause now := by
    obtain ⟨_, lifecycle, _, _, _, _, _, _, _, hf, rfl, hc⟩ :=
      cancelEntry_frame env request entry cause now m
    rw [hf, hc hr]
    have he := (without_balances ha lifecycle).trans
      (abandonPublished_balances (· = request) now _ [])
    exact ⟨he.unsaturated, he.balance⟩
  edit queued _ _ := .of_same queued rfl rfl rfl rfl
  forget _ _ := .of_same rfl rfl rfl rfl rfl
  enqueue {m request entry} ha work _ next := by
    refine ⟨fun hu => ⟨lt_of_saturatingAdd hu.1, hu.2⟩, ?_⟩
    rintro ⟨hg, -⟩
    have had := saturatingAdd_exact hg
    have hi := total_insert queueLength { entry with
      next, pending := entry.pending ++ batchEntries request entry.next.toNat work } ha
    simp only [entered, explained, update, queueLength,
      length_append, batchEntries_length, orphans_enqueuing] at had hi ⊢
    omega
  idle _ m := .refl _ _
  finish {m request entry} ha _ := by
    obtain ⟨lifecycle, _, _, hf, hc⟩ := withdrawRequest_frame env request entry .abandoned m
    rw [hf, hc hr]
    have he : Balances 0 m.scheduler [] _ [] := without_balances ha lifecycle
    exact ⟨he.unsaturated, he.balance⟩
  stall _ _ := .of_same rfl rfl rfl rfl rfl
  prepare {m request ready state next queued pending} _ ha _ _ _ _ _ := by
    refine ⟨id, fun _ => ?_⟩
    have ht := total_insert queueLength ⟨state, next, pending⟩ ha
    simp only [entered, explained, setLifecycle, queueLength,
      length_append, length_cons, length_nil, orphans_preparing] at ht ⊢
    omega
  reject {m request ready state next queued pending} _ ha _ _ _ now := by
    refine Balances.failing hr ⟨fun hu =>
      ⟨hu.1, hu.2.1, lt_of_saturatingAdd hu.2.2.1, hu.2.2.2⟩, ?_⟩
    rintro ⟨-, -, hg, -⟩
    have had := saturatingAdd_exact hg
    have ht := total_insert queueLength ⟨state, next, pending⟩ ha
    simp only [entered, explained, update, setLifecycle,
      addFailedWork, releaseAccepted, queueLength, length_cons,
      orphans_preparing] at had ht ⊢
    omega
  lost _ _ _ := .refl _ _
  submit {m prepared rest now} hfr _ _ _ _ _ _ := by
    refine ⟨id, fun _ => ?_⟩
    simp only [entered, explained, update, recordSubmission,
      setLifecycle, hfr, countP_append, countP_cons, countP_nil,
      Submitted.isCondemned, length_append, length_cons, length_nil,
      orphans_submitting]
    simp
    omega
  refuse {m prepared rest now} hfr _ _ _ _ _ := by
    refine Balances.failing hr ⟨fun hu =>
      ⟨hu.1, hu.2.1, lt_of_saturatingAdd hu.2.2.1, hu.2.2.2⟩, ?_⟩
    rintro ⟨-, -, hg, -⟩
    have had := saturatingAdd_exact hg
    simp only [entered, explained, update, setLifecycle,
      addFailedWork, releaseAccepted, hfr, length_cons,
      orphans_submitting] at had ⊢
    omega
  drained count m := by
    split <;> exact .of_same rfl rfl rfl rfl rfl
  poll now m := settleAll_balances (settleLocal env now) (viewLocal env) (fun _ _ => rfl)
    (fun work progress m others => (settleLocal_settled now work progress m).balances hr others)
    (fun work progress m => (settleLocal_settled now work progress m).lowers) (map_id _) now
  resolve now m resolutions han := settleAll_balances (settleDistributed env now)
    viewDistributed (fun _ _ => rfl)
    (fun item progress m others =>
      (settleDistributed_settled now item progress m).balances hr others)
    (fun item progress m => (settleDistributed_settled now item progress m).lowers)
    (map_fst_zip han.ge) now

variable (env)

/-- The environment with every failing discard turned into a successful one. -/
def forgiving : Environment Ω W S B O :=
  { env with discardBranch branch world := (.ok (), (env.discardBranch branch world).2) }

theorem forgiving_reliable :
    Reliable (forgiving env) := fun _ _ => rfl

variable {env}

/-- No discard of the call fails: it goes, pass by pass, as if none could. -/
structure Undisturbed (env : Environment Ω W S B O)
    (m : Machine Ω W S B O) (command : Command Ω W S) : Prop where
  step : step env m command = Scheduling.step (forgiving env) m command
  passes : passes env m command = Scheduling.passes (forgiving env) m command

def UndisturbedRun (env : Environment Ω W S B O) :
    Machine Ω W S B O → List (Command Ω W S) → Prop
  | _, [] => True
  | m, command :: rest => Undisturbed env m command ∧ UndisturbedRun env (step env m command) rest

theorem UndisturbedRun.forgiving
    {commands : List (Command Ω W S)} (hu : UndisturbedRun env m commands) :
    run env m commands = run (forgiving env) m commands ∧
      runPasses env m commands = runPasses (Scheduling.forgiving env) m commands := by
  induction commands generalizing m with
  | nil => simp [run, runPasses]
  | cons command rest ih =>
    obtain ⟨hc, hl⟩ := hu
    obtain ⟨hr, hp⟩ := ih hl
    rw [hc.step] at hr hp
    simp only [runPasses, hc.passes, hc.step, hp, and_true]
    simpa only [run, foldl_cons, hc.step] using hr

/-- Every accepted item that left was counted in one terminal counter, exactly in the runs without
orphans. -/
theorem telemetry_conserved_iff (env : Environment Ω W S B O)
    {limits : SchedulerLimits} {scheduler : Scheduler W S B O} (world : Ω)
    (created : new limits = .ok scheduler) (commands : List (Command Ω W S))
    (undisturbed : UndisturbedRun env { scheduler, world } commands)
    (unsaturated : (run env { scheduler, world } commands).scheduler.Unsaturated) :
    let reached := run env { scheduler, world } commands
    let counted := report env reached
    counted.submittedWork + counted.failedInFlightWork =
        counted.completedWork + counted.failedWork + counted.discardedWork +
          counted.abandonedReleasedWork + reached.scheduler.acceptedWork ↔
      ∀ pass ∈ runPasses env { scheduler, world } commands, pass.isOrphan = false := by
  obtain ⟨reached, hp⟩ := undisturbed.forgiving
  have hc := (conserves_tracks (forgiving_reliable env)).run { scheduler, world } commands
  have hh := (occupancy_accounted (forgiving env)
    ((Reachable.new world created).run (forgiving env) commands)).1
  rw [← reached] at hc hh
  rw [← hp] at hc
  have hb := hc.balance unsaturated
  have hco : (report env (run env { scheduler, world } commands)).failedInFlightWork =
      (run env { scheduler, world } commands).scheduler.submitted.countP (·.isCondemned) := by
    rw [countP_eq_length_filter]
    refine congrArg List.length (filter_congr fun work _ => ?_)
    cases hk : work.disposition <;> simp [Submitted.isCondemned, hk]
  have hn : orphans (runPasses env { scheduler, world } commands) = 0 ↔
      ∀ pass ∈ runPasses env { scheduler, world } commands, pass.isOrphan = false := by
    simp [orphans]
  have hs : entered scheduler [] = 0 ∧ explained scheduler [] = 0 := by
    obtain rfl := new_eq created
    exact ⟨rfl, rfl⟩
  rw [← hn]
  dsimp only
  rw [hco, hh, length_queuedIds]
  simp only [entered, explained] at hb hs
  simp only [report]
  omega

/-- Two branches of one request at once. The first observation of an output fails, every later one
finds it complete; the world says whether an observation is still to fail. -/
def faultyEnvironment : Environment Bool Bool Nat Nat Nat :=
  { linkedEnvironment with
    permitsParallelBranches _ := true
    isComplete _ faulty := (if faulty then .error "output lost" else .ok true, false) }

/-- Two items of one request are submitted and polled. -/
def siblingRun : List (Command Bool Bool Nat) :=
  [.register ⟨0⟩ 0, .enqueueBatch ⟨0⟩ [(true, none), (true, none)], .prepareBounded 2 0,
    .submitPrepared 0, .pollCompletions 0]

def faultyStart (faulty : Bool) : Machine Bool Bool Nat Nat Nat where
  scheduler := { limits := ⟨2, 4, 2, 2, 2, 8⟩ }
  world := faulty

/-- Without a fault both items are counted as completed work. -/
theorem telemetry_conserved_siblings :
    let reached := run faultyEnvironment (faultyStart false) siblingRun
    let counted := report faultyEnvironment reached
    (counted.submittedWork, counted.completedWork) = (2, 2) ∧
    counted.submittedWork + counted.failedInFlightWork =
        counted.completedWork + counted.failedWork + counted.discardedWork +
          counted.abandonedReleasedWork + reached.scheduler.acceptedWork := by
  refine ⟨by decide, (telemetry_conserved_iff faultyEnvironment false
    (show new ⟨2, 4, 2, 2, 2, 8⟩ = .ok _ from rfl) siblingRun ?_ ?_).2 (by decide)⟩
  · exact ⟨⟨rfl, rfl⟩, ⟨rfl, rfl⟩, ⟨rfl, rfl⟩, ⟨rfl, rfl⟩, ⟨rfl, rfl⟩, trivial⟩
  · unfold Scheduler.Unsaturated
    decide

/-- The failed observation of the first item fails the request; its sibling, found complete in the
same poll, leaves without being counted. -/
theorem sibling_leaves_uncounted :
    let reached := run faultyEnvironment (faultyStart true) siblingRun
    let counted := report faultyEnvironment reached
    Reachable faultyEnvironment reached ∧
      UndisturbedRun faultyEnvironment (faultyStart true) siblingRun ∧
      reached.scheduler.Unsaturated ∧
      (counted.submittedWork, counted.failedInFlightWork) = (2, 0) ∧
      (counted.completedWork, counted.failedWork, counted.discardedWork,
        counted.abandonedReleasedWork, reached.scheduler.acceptedWork) = (0, 1, 0, 0, 0) := by
  have hr : Reachable faultyEnvironment (faultyStart true) :=
    .new true (show new ⟨2, 4, 2, 2, 2, 8⟩ = .ok _ from rfl)
  refine ⟨hr.run faultyEnvironment siblingRun,
    ⟨⟨rfl, rfl⟩, ⟨rfl, rfl⟩, ⟨rfl, rfl⟩, ⟨rfl, rfl⟩, ⟨rfl, rfl⟩, trivial⟩, ?_, by decide, by decide⟩
  unfold Scheduler.Unsaturated
  decide

end Eredu.Scheduling
