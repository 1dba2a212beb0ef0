import Eredu.PromptCache.Publication

/-!
# What a publication leaves behind

A publication is `Restorable` while its flags describe what has happened on the
disk: from such a state a rollback, wherever it is interrupted, keeps the destination
sound and stays restorable, and one that runs through restores the destination. A
publication whose last synchronization failed after the change became visible is
`Stranded`: its flags say that nothing was published.
-/

namespace Eredu.PromptCache

open Effect Nat Option List CacheDirectory

namespace CacheDirectory

variable {γ : Type} {directory : CacheDirectory γ} {name other : String} {generation added : γ}

/-- `CURRENT` holds the name of a generation that is there. -/
structure Names (directory : CacheDirectory γ) (name : String) (generation : γ) : Prop where
  current : directory.current = some (name ++ "\n")
  readable : pointerName (name ++ "\n") = .ok name
  listed : directory.generations.lookup name = some generation

def Complete (complete : γ → Bool) (directory : CacheDirectory γ) : Prop :=
  ∃ name generation, directory.Names name generation ∧ complete generation = true

theorem Names.resolve_eq (hn : directory.Names name generation) :
    directory.resolve = .ok (name, generation) := by
  unfold resolve
  rw [hn.current]
  show (pointerName (name ++ "\n") >>= _) = _
  rw [hn.readable, ok_bind, hn.listed]

theorem lookup_install (hl : directory.generations.lookup name = some generation) :
    (directory.install other added).generations.lookup name = some generation := by
  simp only [install, lookup_append, hl, some_or]

theorem lookup_install_self (ha : directory.generations.lookup name = none) :
    (directory.install name added).generations.lookup name = some added := by
  simp [install, lookup_append, ha]

theorem lookup_removeGeneration (hd : name ≠ other) :
    (directory.removeGeneration other).generations.lookup name =
      directory.generations.lookup name := by
  unfold removeGeneration
  induction directory.generations with
  | nil => rfl
  | cons entry rest ih =>
    obtain ⟨key, value⟩ := entry
    by_cases hr : key = other
    · have hu : (name == key) = false := beq_false_of_ne (hr ▸ hd)
      rw [filter_cons_of_neg (by simp [hr]), ih, lookup_cons, hu]
    · rw [filter_cons_of_pos (by simp [hr]), lookup_cons, lookup_cons, ih]

theorem lookup_removeGeneration_self :
    (directory.removeGeneration name).generations.lookup name = none := by
  rw [lookup_eq_none_iff]
  intro entry hl
  have hk := (mem_filter.mp hl).2
  exact bne_iff_ne.mpr (Ne.symm (of_decide_eq_true hk))

section

variable (hn : directory.Names name generation)
include hn

theorem Names.resolve_removed (found : String × γ) :
    (directory.removeGeneration name).resolve ≠ .ok found := by
  unfold resolve
  rw [show (directory.removeGeneration name).current = some (name ++ "\n") from hn.current]
  show (pointerName (name ++ "\n") >>= _) ≠ _
  rw [hn.readable, ok_bind, lookup_removeGeneration_self]
  exact nofun

theorem Names.install : (directory.install other added).Names name generation :=
  ⟨hn.current, hn.readable, lookup_install hn.listed⟩

theorem Names.removeGeneration (hd : name ≠ other) :
    (directory.removeGeneration other).Names name generation :=
  ⟨hn.current, hn.readable, (lookup_removeGeneration hd).trans hn.listed⟩

end

end CacheDirectory

open CacheDirectory (Names Complete)

def Sound {γ : Type} (complete : γ → Bool) (destination : Option (CacheDirectory γ)) : Prop :=
  ∀ directory ∈ destination, directory.Complete complete

namespace Publication

variable {γ : Type} {complete : γ → Bool} {plan : Nat → Bool} {publication : Publication γ}
  {returned : Unit → Publication γ → Prop} {stopped : Fault PersistenceError → Publication γ → Prop}

variable {path : CachePath} {action : String} {change : Disk γ → Disk γ}

theorem yields_perform (hf : plan publication.calls = true →
      stopped (.error (.io action path)) (publication.called publication.disk))
    (hs : plan publication.calls = false →
      returned () (publication.called (change publication.disk))) :
    (perform plan action path change).Yields publication returned stopped := by
  refine .bind (yields_get.mpr ?_)
  cases hp : plan publication.calls with
  | true => exact hf hp
  | false => exact hs hp

/-- The calls have gone through sound destinations. -/
def Seen (complete : γ → Bool) (publication : Publication γ) : Prop :=
  ∀ destination ∈ publication.visited, Sound complete destination

variable {disk : Disk γ}

theorem Seen.called (hse : publication.Seen complete) (hs : Sound complete disk.destination) :
    (publication.called disk).Seen complete := by
  intro destination hl
  rcases mem_append.mp hl with he | hla
  · exact hse destination he
  · rw [mem_singleton.mp hla]
    exact hs

/-- Some call from a number on fails. -/
def Faulted (plan : Nat → Bool) (first : Nat) : Prop := ∃ call, first ≤ call ∧ plan call = true

theorem Faulted.mono {first later : Nat} (hf : Faulted plan later) (le : first ≤ later) :
    Faulted plan first := by
  obtain ⟨call, after, hp⟩ := hf
  exact ⟨call, le_trans le after, hp⟩

/-- What a destination with a generation to name goes through while `CURRENT` is switched to it:
the old pointer up to the rename and the new one after it. -/
structure Switching (complete : γ → Bool) (name : String) (generation : γ)
    (publication : Publication γ) : Prop where
  seen : publication.Seen complete
  destination : ∃ directory, publication.disk.destination = some directory ∧
    directory.Complete complete ∧ directory.generations.lookup name = some generation

variable {generation : γ} {name : String}

theorem Switching.called (hs : publication.Switching complete name generation)
    (directory : CacheDirectory γ) (hl : disk.destination = some directory)
    (hso : directory.Complete complete)
    (hli : directory.generations.lookup name = some generation) :
    (publication.called disk).Switching complete name generation := by
  refine ⟨hs.seen.called ?_, directory, hl, hso, hli⟩
  intro other hm
  rw [hl] at hm
  exact mem_some.mp hm ▸ hso

/-- Everything a pointer switch leaves alone. -/
structure SameFlags (before after : Publication γ) : Prop where
  staging : after.disk.staging = before.disk.staging
  generations : after.disk.destination.map generations =
    before.disk.destination.map generations
  replaceExisting : after.replaceExisting = before.replaceExisting
  previousGeneration : after.previousGeneration = before.previousGeneration
  movedGeneration : after.movedGeneration = before.movedGeneration
  published : after.published = before.published
  committed : after.committed = before.committed
  nonce : after.nonce = before.nonce

namespace SameFlags

variable {before middle after : Publication γ}

theorem refl (publication : Publication γ) : SameFlags publication publication :=
  ⟨rfl, rfl, rfl, rfl, rfl, rfl, rfl, rfl⟩

theorem trans (first : SameFlags before middle) (hs : SameFlags middle after) :
    SameFlags before after :=
  ⟨hs.staging.trans first.staging, hs.generations.trans first.generations,
    hs.replaceExisting.trans first.replaceExisting,
    hs.previousGeneration.trans first.previousGeneration,
    hs.movedGeneration.trans first.movedGeneration, hs.published.trans first.published,
    hs.committed.trans first.committed, hs.nonce.trans first.nonce⟩

theorem called (hsa : SameFlags before publication) (hs : disk.staging = publication.disk.staging)
    (hg : disk.destination.map CacheDirectory.generations =
      publication.disk.destination.map CacheDirectory.generations) :
    SameFlags before (publication.called disk) :=
  hsa.trans ⟨hs, hg, rfl, rfl, rfl, rfl, rfl, rfl⟩

end SameFlags

variable (plan)

/-- The synchronization after the switch fails, and nothing before it. -/
def SwitchLate (first : Nat) : Prop :=
  (∀ offset < 4, plan (first + offset) = false) ∧ plan (first + 4) = true

variable (complete) (name)

/-- After a switch that failed: either the old pointer is there, or the new one is and only the
synchronization after it failed. -/
structure SwitchFailed (generation : γ) (before after : Publication γ) : Prop where
  switching : after.Switching complete name generation
  flags : SameFlags before after
  faulted : Faulted plan before.calls
  outcome : SwitchLate plan before.calls ∧ after.calls = before.calls + 5 ∧
      (∃ directory, after.disk.destination = some directory ∧ directory.Names name generation ∧
        some directory ∈ after.visited) ∨
    ¬ SwitchLate plan before.calls ∧
      after.disk.destination.map current =
        before.disk.destination.map current

structure Switched (generation : γ) (before after : Publication γ) : Prop where
  switching : after.Switching complete name generation
  flags : SameFlags before after
  calls : after.calls = before.calls + 5
  named : ∃ directory, after.disk.destination = some directory ∧ directory.Names name generation
  unfaulted : ¬ SwitchLate plan before.calls

/-- The state of a switch before the rename: the temporary file is written, the rest is as before. -/
structure Writing (generation : γ) (steps : Nat) (before after : Publication γ) : Prop where
  switching : after.Switching complete name generation
  flags : SameFlags before after
  calls : after.calls = before.calls + steps
  unfaulted : ∀ offset < steps, plan (before.calls + offset) = false
  current : after.disk.destination.map current =
    before.disk.destination.map current

variable {name} {plan} {complete}

namespace Writing

variable {name : String} {generation : γ} {steps : Nat} {before after : Publication γ}

section

variable (hw : Writing complete plan name generation steps before after)
include hw

theorem failed (he : steps < 4) (hp : plan after.calls = true) :
    SwitchFailed complete plan name generation before (after.called after.disk) := by
  obtain ⟨directory, ht, hs, hl⟩ := hw.switching.destination
  rw [hw.calls] at hp
  refine ⟨hw.switching.called directory ht hs hl, hw.flags.called rfl rfl,
    ⟨_, Nat.le_add_right _ _, hp⟩, .inr ⟨fun hla => ?_, hw.current⟩⟩
  exact absurd (hla.1 steps he) (by simp [hp])

theorem yields_call (he : steps < 4) (change : CacheDirectory γ → CacheDirectory γ)
    (hc : ∀ directory, (change directory).current = directory.current)
    (hg : ∀ directory, (change directory).generations = directory.generations) :
    (onDestination plan action path change).Yields after
      (fun _ next => Writing complete plan name generation (steps + 1) before next ∧
        next.disk.destination = after.disk.destination.map change)
      (fun fault next => Reported fault next ∧
        SwitchFailed complete plan name generation before next) := by
  obtain ⟨directory, ht, ⟨old, content, hn, hwh⟩, hl⟩ := hw.switching.destination
  refine yields_perform (fun hf => ⟨⟨_, rfl⟩, hw.failed he hf⟩)
    fun hp => ⟨⟨?_, ?_, ?_, ?_, ?_⟩, rfl⟩
  · refine hw.switching.called (change directory) (by rw [ht]; rfl) ?_ ?_
    · exact ⟨old, content, ⟨(hc _).trans hn.current, hn.readable,
        (hg directory).symm ▸ hn.listed⟩, hwh⟩
    · rw [hg]
      exact hl
  · refine hw.flags.called ?_ ?_
    · rfl
    rw [Option.map_map]
    exact congrArg (fun read => Option.map read after.disk.destination) (funext hg)
  · show after.calls + 1 = _
    rw [hw.calls, add_assoc]
  · intro offset hb
    by_cases hla : offset = steps
    · rw [hla, ← hw.calls]
      exact hp
    · exact hw.unfaulted offset (by omega)
  · show (after.disk.destination.map change).map CacheDirectory.current = _
    rw [← hw.current, Option.map_map]
    exact congrArg (fun read => Option.map read after.disk.destination) (funext hc)

end

end Writing

theorem perform_id_eq (action : String) (path : CachePath) :
    (perform plan action path id : PublicationM γ Unit) = onDestination plan action path id := by
  congr 1
  funext disk
  simp only [Option.map_id, id]

theorem yields_publishGenerationPointer {nonce : Nat}
    (hsw : publication.Switching complete name generation)
    (hr : pointerName (name ++ "\n") = .ok name) (hwh : complete generation = true) :
    (publishGenerationPointer plan name nonce).Yields publication
      (fun _ => Switched complete plan name generation publication)
      (fun fault after => Reported fault after ∧
        SwitchFailed complete plan name generation publication after) := by
  have hst : Writing complete plan name generation 0 publication publication :=
    ⟨hsw, SameFlags.refl _, rfl, fun _ hno => absurd hno (Nat.not_lt_zero _), rfl⟩
  refine (hst.yields_call (by omega) (.setTemporary nonce "")
    (fun _ => rfl) fun _ => rfl).andThen ?_
  rintro _ created ⟨hw, -⟩
  refine (hw.yields_call (by omega)
    (.setTemporary nonce (name ++ "\n")) (fun _ => rfl) fun _ => rfl).andThen ?_
  rintro _ written ⟨hw, hwr⟩
  rw [perform_id_eq]
  refine (hw.yields_call (by omega) id (fun _ => rfl) fun _ => rfl).andThen ?_
  rintro _ synced ⟨hw, hk⟩
  rw [Option.map_id, id, hwr] at hk
  obtain ⟨directory, ht, -, hl⟩ := hw.switching.destination
  have hte : directory.temporaries.lookup nonce = some (name ++ "\n") := by
    rw [ht] at hk
    obtain ⟨earlier, -, rfl⟩ := Option.map_eq_some_iff.mp hk.symm
    simp [CacheDirectory.setTemporary]
  have hn : (directory.switchTo nonce).Names name generation := ⟨hte, hr, hl⟩
  refine .bind (yields_perform (fun hf => ⟨⟨_, rfl⟩, hw.failed (by omega) hf⟩) fun hp => ?_)
  have hsd : (synced.called { synced.disk with
      destination := synced.disk.destination.map (.switchTo nonce) }).Switching complete name
        generation :=
    hw.switching.called _ (by rw [ht]; rfl) ⟨_, _, hn, hwh⟩ hl
  have hfl : SameFlags publication (synced.called { synced.disk with
      destination := synced.disk.destination.map (.switchTo nonce) }) :=
    hw.flags.called rfl (by rw [ht]; rfl)
  have hu : ∀ offset < 4, plan (publication.calls + offset) = false := by
    intro offset hb
    by_cases hla : offset = 3
    · rw [hla, ← hw.calls]
      exact hp
    · exact hw.unfaulted offset (by omega)
  have hc : synced.calls + 1 = publication.calls + 4 := by rw [hw.calls]
  refine yields_perform (fun hf => ?_) fun hs => ?_
  · change plan (synced.calls + 1) = true at hf
    rw [hc] at hf
    refine ⟨⟨_, rfl⟩, hsd.called _ (by rw [ht]; rfl) ⟨_, _, hn, hwh⟩ hl,
      hfl.called rfl rfl, ⟨_, Nat.le_add_right _ _, hf⟩,
      .inl ⟨⟨hu, hf⟩, ?_, directory.switchTo nonce, by rw [ht]; rfl, hn, ?_⟩⟩
    · show synced.calls + 1 + 1 = _
      rw [hc]
    · simp [Publication.called, ht]
  · change plan (synced.calls + 1) = false at hs
    rw [hc] at hs
    refine ⟨hsd.called _ (by rw [ht]; rfl) ⟨_, _, hn, hwh⟩ hl,
      hfl.called rfl rfl, ?_, ⟨directory.switchTo nonce, by rw [ht]; rfl, hn⟩,
      fun hle => ?_⟩
    · show synced.calls + 1 + 1 = _
      rw [hc]
    · exact absurd hle.2 (by simp [hs])

def Restored (before : Option (String × γ)) (publication : Publication γ) : Prop :=
  match before with
  | none => publication.disk.destination = none
  | some (name, generation) => ∃ directory, publication.disk.destination = some directory ∧
      directory.Names name generation

variable (complete)

/-- The flags describe how to get back to what was there before. -/
def Undoable (before : Option (String × γ)) (publication : Publication γ) : Prop :=
  match before with
  | none => publication.movedGeneration = none ∧
      (publication.published = false ∧ publication.disk.destination = none ∨
        publication.published = true ∧ publication.previousGeneration = none)
  | some (name, generation) => complete generation = true ∧
      pointerName (name ++ "\n") = .ok name ∧ publication.movedGeneration ≠ some name ∧
      ∃ directory, publication.disk.destination = some directory ∧
        directory.generations.lookup name = some generation ∧
        (publication.published = false ∧ directory.current = some (name ++ "\n") ∨
          publication.published = true ∧ publication.previousGeneration = some name)

structure Restorable (complete : γ → Bool) (before : Option (String × γ))
    (publication : Publication γ) : Prop where
  seen : publication.Seen complete
  sound : Sound complete publication.disk.destination
  undoable : publication.Undoable complete before

variable {before : Option (String × γ)} {first : Nat}

def RolledBack (before : Option (String × γ)) (first : Nat) (publication : Publication γ) : Prop :=
  publication.Restorable complete before ∧ publication.Restored before ∧ first ≤ publication.calls

def Interrupted (plan : Nat → Bool) (before : Option (String × γ))
    (first : Nat) (publication : Publication γ) : Prop :=
  publication.Restorable complete before ∧ Faulted plan first

/-- What the parts of a rollback do from a restorable state. -/
abbrev Rewinds (plan : Nat → Bool) (before : Option (String × γ)) (first : Nat)
    (publication : Publication γ) (part : PublicationM γ Unit) : Prop :=
  part.Yields publication (fun _ after => after.RolledBack complete before first)
    (fun fault after => Reported fault after ∧ after.Interrupted complete plan before first)

variable {complete}

theorem Restorable.unchanged (hr : publication.Restorable complete before)
    (hs : disk.destination = publication.disk.destination) :
    (publication.called disk).Restorable complete before := by
  refine ⟨hr.seen.called (hs ▸ hr.sound), ?_, ?_⟩
  · show Sound complete disk.destination
    exact hs ▸ hr.sound
  · have hu := hr.undoable
    unfold Undoable at hu ⊢
    simpa only [called, hs] using hu

theorem Restored.unchanged (hr : publication.Restored before)
    (hs : disk.destination = publication.disk.destination) :
    (publication.called disk).Restored before := by
  unfold Restored at hr ⊢
  simpa only [called, hs] using hr

theorem RolledBack.unchanged (hr : publication.RolledBack complete before first)
    (hs : disk.destination = publication.disk.destination) :
    (publication.called disk).RolledBack complete before first :=
  ⟨hr.1.unchanged hs, hr.2.1.unchanged hs, le_succ_of_le hr.2.2⟩

theorem yields_quiet (hq : ∀ disk, (change disk).destination = disk.destination)
    (hr : publication.RolledBack complete before first) :
    Rewinds complete plan before first publication (perform plan action path change) := by
  refine yields_perform (fun hf => ?_) fun _ => ?_
  · exact ⟨⟨_, rfl⟩, hr.1.unchanged rfl, _, hr.2.2, hf⟩
  · exact hr.unchanged (hq publication.disk)

theorem sound_some {directory : CacheDirectory γ} (hw : directory.Complete complete) :
    Sound complete (some directory) :=
  fun _ hm => mem_some.mp hm ▸ hw

theorem yields_withdraw_new (hr : publication.Restorable complete none)
    (hs : first ≤ publication.calls) :
    Rewinds complete plan none first publication (withdraw plan) := by
  obtain ⟨hud, ⟨hu, ha⟩ | ⟨hpu, hun⟩⟩ := hr.undoable
  · unfold withdraw
    refine .bind (yields_get.mpr ?_)
    rw [if_neg (by simp [hu])]
    exact ⟨hr, ha, hs⟩
  · unfold withdraw
    refine .bind (yields_get.mpr ?_)
    rw [if_pos hpu]
    simp only [hun]
    by_cases hp : publication.disk.destination.isSome
    · rw [if_pos hp]
      refine .bind (yields_perform (fun hf => ?_) fun _ => ?_)
      · exact ⟨⟨_, rfl⟩, hr.unchanged rfl, _, hs, hf⟩
      · apply yields_quiet fun _ => rfl
        refine ⟨⟨hr.seen.called nofun, nofun, hud, .inr ⟨hpu, hun⟩⟩, rfl, le_succ_of_le hs⟩
    · rw [if_neg hp]
      exact ⟨hr, not_isSome_iff_eq_none.mp hp, hs⟩

theorem yields_withdraw_replaced (hr : publication.Restorable complete (some (name, generation)))
    (hst : first ≤ publication.calls) :
    Rewinds complete plan (some (name, generation)) first publication (withdraw plan) := by
  obtain ⟨hw, hre, other, directory, ht, hl, hse⟩ := hr.undoable
  refine .bind (yields_get.mpr ?_)
  rcases hse with ⟨hu, hc⟩ | ⟨hp, hpr⟩
  · rw [if_neg (by simp [hu])]
    exact ⟨hr, ⟨directory, ht, hc, hre, hl⟩, hst⟩
  · rw [if_pos hp]
    simp only [hpr]
    have hs : publication.Switching complete name generation :=
      ⟨hr.seen, directory, ht, hr.sound directory ht, hl⟩
    -- Whatever the switch reached, the flags are those of a published replacement.
    have hsl : ∀ after : Publication γ, after.Switching complete name generation →
        SameFlags publication after → after.Restorable complete (some (name, generation)) := by
      intro after hs hfl
      obtain ⟨reached, hle, hso, hk⟩ := hs.destination
      exact ⟨hs.seen, hle ▸ sound_some hso, hw, hre, hfl.movedGeneration ▸ other, reached, hle, hk,
        .inr ⟨hfl.published.trans hp, hfl.previousGeneration.trans hpr⟩⟩
    refine (yields_publishGenerationPointer hs hre hw).mono ?_ ?_
    · exact fun _ after hsw => ⟨hsl after hsw.switching hsw.flags, hsw.named,
        by rw [hsw.calls]; omega⟩
    · exact fun _ after hf => ⟨hf.1, hsl after hf.2.switching hf.2.flags, hf.2.faulted.mono hst⟩

theorem yields_withdraw (hr : publication.Restorable complete before)
    (hs : first ≤ publication.calls) :
    Rewinds complete plan before first publication (withdraw plan) := by
  rcases before with _ | ⟨name, generation⟩
  · exact yields_withdraw_new hr hs
  · exact yields_withdraw_replaced hr hs

theorem RolledBack.unmoved (hro : publication.RolledBack complete before first) :
    ({ publication with movedGeneration := none }).RolledBack complete before first := by
  obtain ⟨⟨hse, hs, hu⟩, hr, hst⟩ := hro
  refine ⟨⟨hse, hs, ?_⟩, hr, hst⟩
  rcases before with _ | ⟨name, generation⟩
  · exact ⟨rfl, hu.2⟩
  · exact ⟨hu.1, hu.2.1, nofun, hu.2.2.2⟩

theorem yields_removeMoved (hr : publication.RolledBack complete before first) :
    Rewinds complete plan before first publication (removeMoved plan) := by
  have hu := hr.unmoved
  refine .bind (yields_get.mpr ?_)
  refine .bind (yields_set _ |>.mpr ?_)
  cases hm : publication.movedGeneration with
  | none => exact hu
  | some generation =>
    dsimp only
    split
    · refine .bind (yields_perform (fun hf => ?_) fun _ => ?_)
      · exact ⟨⟨_, rfl⟩, hu.1.unchanged rfl, _, hu.2.2, hf⟩
      · apply yields_quiet fun _ => rfl
        rcases before with _ | ⟨name, content⟩
        · exact absurd (hm.symm.trans hr.1.undoable.1) nofun
        · obtain ⟨hw, hr2, other, directory, ht, hli, hs⟩ := hr.1.undoable
          obtain ⟨same, hl, hn⟩ := hr.2.1
          obtain rfl : directory = same := some.inj (ht.symm.trans hl)
          have hd : name ≠ generation := fun he => other (he ▸ hm)
          have hk := hn.removeGeneration hd
          have hre : publication.disk.destination.map (.removeGeneration generation) =
              some (directory.removeGeneration generation) := by rw [ht]; rfl
          refine ⟨⟨hu.1.seen.called ?_, ?_, hw, hr2, nofun, _,
            hre, hk.listed, ?_⟩, ⟨_, hre, hk⟩, le_succ_of_le hr.2.2⟩
          · exact hre ▸ sound_some ⟨name, content, hk, hw⟩
          · exact hre ▸ sound_some ⟨name, content, hk, hw⟩
          · exact hs.imp (fun hea => ⟨hea.1, hk.current⟩) id
    · exact hu

theorem yields_removeStaging (action : String) (hr : publication.RolledBack complete before first) :
    Rewinds complete plan before first publication (removeStaging plan action) := by
  refine .bind (yields_get.mpr ?_)
  split
  · exact yields_quiet (fun _ => rfl) hr
  · exact hr

theorem yields_rollbackInner (hre : publication.Restorable complete before)
    (hs : first ≤ publication.calls) :
    Rewinds complete plan before first publication (rollbackInner plan) := by
  refine (yields_withdraw hre hs).andThen ?_
  intro _ withdrawn hr
  refine (yields_removeMoved hr).andThen ?_
  exact fun _ _ hr => yields_removeStaging _ hr

end Publication

end Eredu.PromptCache
