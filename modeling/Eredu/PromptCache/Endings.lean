import Eredu.PromptCache.Reversal

/-!
# Publishing, and every way it ends

A publication either reports success, or fails with its flags in order, or fails in
the synchronization that follows the visible change. In the last case the flags deny
the change and the end of the publication does not undo it; where a generation was
replaced, it even removes the generation that `CURRENT` names.
-/

namespace Eredu.PromptCache

open CacheDirectory (Names Complete)
open Effect Option CacheDirectory List

variable {name : String} (ending : Ending)

namespace Publication

variable {γ : Type} {complete : γ → Bool} {plan : Nat → Bool} {publication : Publication γ}
  {before : Option (String × γ)} {first : Nat}

/-- The state that a computation leaves, also when it reports an error. -/
abbrev Leaves (reaches : Publication γ → Prop) (publication : Publication γ)
    (m : PublicationM γ Unit) : Prop :=
  m.Yields publication (fun _ => reaches) fun fault after => Reported fault after ∧ reaches after

variable {reaches : Publication γ → Prop}

theorem Leaves.attempt {m : PublicationM γ Unit} (hl : Leaves reaches publication m) :
    (attempt m).Yields publication (fun _ => reaches) fun _ _ => False := by
  refine yields_attempt.mpr (hl.mono (fun _ _ => id) ?_)
  rintro _ after ⟨⟨cause, rfl⟩, hr⟩
  exact hr

theorem yields_drop
    (hu : publication.committed = false → Leaves reaches publication (rollbackInner plan))
    (hc : publication.committed = true → reaches publication) :
    (drop plan).Yields publication (fun _ => reaches) fun _ _ => False := by
  refine .bind (yields_get.mpr ?_)
  cases hp : publication.committed with
  | true => exact hc hp
  | false => exact (hu hp).attempt.andThen fun _ _ => id

/-- What a rollback establishes however often it is tried. -/
theorem yields_conclude_of
    (hun : ending = .commit → publication.published = false) (hu : publication.committed = false)
    (hro : Leaves reaches publication (rollbackInner plan))
    (hag : ∀ later, reaches later → Leaves reaches later (rollbackInner plan))
    (hk : ∀ later, reaches later → reaches { later with committed := true }) :
    (conclude plan ending).Yields publication (fun _ => reaches) fun _ _ => False := by
  have hdr : (drop plan).Yields publication (fun _ => reaches) fun _ _ => False :=
    yields_drop (fun _ => hro) fun hc => absurd (hu.symm.trans hc) nofun
  cases ending with
  | commit =>
    have hre : (attempt (commit plan)).Yields publication
        (fun _ after => after = publication) (fun _ _ => False) := by
      refine yields_attempt.mpr (Yields.bind (yields_get.mpr ?_))
      rw [if_pos (by simp [hun rfl])]
      rfl
    refine hre.andThen ?_
    rintro result _ rfl
    exact hdr.andThen fun _ _ => id
  | rollback =>
    have hrd : Leaves reaches publication (rollback plan) :=
      hro.andThen fun _ _ hr => yields_modify _ |>.mpr (hk _ hr)
    refine hrd.attempt.andThen ?_
    intro result after hr
    exact (yields_drop (fun _ => hag after hr) fun _ => hr).andThen fun _ _ => id
  | drop =>
    refine .bind (yields_attempt.mpr (yields_pure _ |>.mpr ?_))
    exact hdr.andThen fun _ _ => id

/-- Restored, unless some call failed. -/
def Recovered (complete : γ → Bool) (plan : Nat → Bool) (before : Option (String × γ))
    (first : Nat) (publication : Publication γ) : Prop :=
  publication.RolledBack complete before first ∨
    publication.Restorable complete before ∧ Faulted plan first

section

variable (hr : publication.Recovered complete plan before first)
include hr

theorem Recovered.restorable : publication.Restorable complete before := by
  rcases hr with hro | hi
  · exact hro.1
  · exact hi.1

theorem Recovered.restored (hu : ¬ Faulted plan first) : publication.Restored before := by
  rcases hr with hro | hi
  · exact hro.2.1
  · exact absurd hi.2 hu

end

theorem yields_rollbackInner_recovers (hr : publication.Restorable complete before)
    (hst : first ≤ publication.calls) :
    Leaves (Recovered complete plan before first) publication (rollbackInner plan) := by
  refine (yields_rollbackInner hr hst).mono ?_ ?_
  · exact fun _ _ hro => .inl hro
  · exact fun _ _ hs => ⟨hs.1, .inr hs.2⟩

theorem Recovered.again (hrd : publication.Recovered complete plan before first) :
    Leaves (Recovered complete plan before first) publication (rollbackInner plan) := by
  rcases hrd with hr | ⟨hre, hf⟩
  · exact yields_rollbackInner_recovers hr.1 hr.2.2
  · refine (yields_rollbackInner hre le_rfl).mono ?_ ?_
    · exact fun _ _ hr => .inr ⟨hr.1, hf⟩
    · exact fun _ _ hs => ⟨hs.1, .inr ⟨hs.2.1, hf⟩⟩

theorem Restorable.committed (hr : publication.Restorable complete before) :
    ({ publication with committed := true }).Restorable complete before :=
  ⟨hr.seen, hr.sound, hr.undoable⟩

theorem Recovered.committed (hr : publication.Recovered complete plan before first) :
    ({ publication with committed := true }).Recovered complete plan before first := by
  rcases hr with hro | hi
  · exact .inl ⟨hro.1.committed, hro.2⟩
  · exact .inr ⟨hi.1.committed, hi.2⟩

theorem yields_conclude_recovers
    (hun : ending = .commit → publication.published = false) (hu : publication.committed = false)
    (hre : publication.Restorable complete before) : (conclude plan ending).Yields publication
      (fun _ => Recovered complete plan before publication.calls) fun _ _ => False :=
  yields_conclude_of ending hun hu
    (yields_rollbackInner_recovers hre le_rfl)
    (fun _ hr => hr.again) (fun _ hr => hr.committed)

/-- A commit of a published cache leaves it in its place, or undoes it if it fails. -/
theorem yields_conclude_commit (hp : publication.published = true)
    (hr : publication.Restorable complete before) : (conclude plan .commit).Yields publication
      (fun result after => after.Restorable complete before ∧
        (result = .ok () ∧ after.disk.destination = publication.disk.destination ∨
          result ≠ .ok () ∧ Faulted plan publication.calls)) (fun _ _ => False) := by
  have hrd : (attempt (commit plan)).Yields publication
      (fun result after => after.Restorable complete before ∧
        (result = .ok () ∧ after.committed = true ∧
            after.disk.destination = publication.disk.destination ∨
          result ≠ .ok () ∧ Faulted plan publication.calls)) (fun _ _ => False) := by
    refine yields_attempt.mpr (Yields.bind (yields_get.mpr ?_))
    rw [if_neg (by simp [hp])]
    refine .bind (Yields.bind (yields_get.mpr ?_))
    split
    · refine yields_perform (fun hf => ?_) fun _ => ?_
      · exact ⟨hr.unchanged rfl, .inr ⟨nofun, _, Nat.le_refl _, hf⟩⟩
      · refine ⟨Restorable.committed (hr.unchanged ?_), .inl ⟨rfl, rfl, rfl⟩⟩
        rfl
    · exact ⟨hr.committed, .inl ⟨rfl, rfl, rfl⟩⟩
  refine hrd.andThen ?_
  rintro result after ⟨hr, ⟨rfl, hc, hs⟩ | ⟨hfd, hfa⟩⟩
  · unfold drop
    refine .bind (Yields.bind (yields_get.mpr ?_))
    rw [if_neg (by simp [hc])]
    exact ⟨hr, .inl ⟨rfl, hs⟩⟩
  · have hd : (drop plan).Yields after (fun _ => Restorable complete before) fun _ _ => False :=
      yields_drop (fun _ => (yields_rollbackInner_recovers hr le_rfl).mono
        (fun _ _ hre => hre.restorable) fun _ _ hs => ⟨hs.1, hs.2.restorable⟩) fun _ => hr
    refine hd.andThen ?_
    exact fun _ _ hr => ⟨hr, .inr ⟨hfd, hfa⟩⟩

/-- Nothing is left to undo: the destination stays what it is, and no other is visited. -/
structure Idle (destination : Option (CacheDirectory γ)) (states : Set (Option (CacheDirectory γ)))
    (publication : Publication γ) : Prop where
  unpublished : publication.published = false
  unmoved : publication.movedGeneration = none
  stays : publication.disk.destination = destination
  visits : ∀ state, state ∈ publication.visited ↔ state ∈ states
  member : destination ∈ states

variable {destination : Option (CacheDirectory γ)} {states : Set (Option (CacheDirectory γ))}

theorem Idle.called {disk : Disk γ} (hi : publication.Idle destination states)
    (hs : disk.destination = destination) : (publication.called disk).Idle destination states := by
  refine ⟨hi.unpublished, hi.unmoved, hs, fun state => ?_, hi.member⟩
  show state ∈ publication.visited ++ [disk.destination] ↔ _
  rw [mem_append, mem_singleton, hi.visits, hs]
  constructor
  · rintro (he | rfl)
    · exact he
    · exact hi.member
  · exact .inl

theorem Idle.yields_removeStaging (hi : publication.Idle destination states) (action : String) :
    Leaves (Idle destination states) publication (removeStaging plan action) := by
  refine .bind (yields_get.mpr ?_)
  split
  · refine yields_perform (fun _ => ⟨⟨_, rfl⟩, ?_⟩) fun _ => ?_
    · exact hi.called hi.stays
    · exact hi.called hi.stays
  · exact hi

theorem yields_withdraw_unpublished (hu : publication.published = false) :
    (withdraw plan).Yields publication (fun _ after => after = publication) (fun _ _ => False) := by
  refine .bind (yields_get.mpr ?_)
  rw [if_neg (by simp [hu])]
  rfl

theorem Idle.yields_rollbackInner (hi : publication.Idle destination states) :
    Leaves (Idle destination states) publication (rollbackInner plan) := by
  refine .bind ((yields_withdraw_unpublished hi.unpublished).mono ?_ fun _ _ => False.elim)
  intro _ after hs
  rw [hs]
  refine .bind (Yields.bind (yields_get.mpr ?_))
  refine .bind (yields_set _ |>.mpr ?_)
  simp only [hi.unmoved]
  have hu : ({ publication with movedGeneration := none }).Idle destination states :=
    ⟨hi.unpublished, rfl, hi.stays, hi.visits, hi.member⟩
  exact hu.yields_removeStaging _

variable {directory : CacheDirectory γ}

/-- The end of a publication that moved a generation and believes it is not published: the
generation is removed unless that call fails. -/
theorem yields_rollbackInner_moved {generation : γ}
    (hu : publication.published = false) (hmo : publication.movedGeneration = some name)
    (ht : publication.disk.destination = some directory) (hn : directory.Names name generation)
    (hm : some directory ∈ publication.visited) :
    Leaves (Idle
        (some (if plan publication.calls then directory else directory.removeGeneration name))
        { state | state ∈ publication.visited ∨ plan publication.calls = false ∧
          state = some (directory.removeGeneration name) })
      publication (rollbackInner plan) := by
  refine .bind ((yields_withdraw_unpublished hu).mono ?_ fun _ _ => False.elim)
  intro _ after hsa
  rw [hsa]
  refine .bind (Yields.bind (yields_get.mpr ?_))
  refine .bind (yields_set _ |>.mpr ?_)
  simp only [hmo]
  rw [if_pos (by simp [ht, hn.listed])]
  refine .bind (yields_perform (fun hf => ?_) fun hs => ?_)
  · change plan publication.calls = true at hf
    refine ⟨⟨_, rfl⟩, hu, rfl, ?_, fun state => ?_, ?_⟩
    · simp [hf, ht, called]
    · simp only [called, mem_append, mem_singleton, hf, Set.mem_ofPred_eq,
        Bool.true_eq_false, false_and, or_false, ht]
      exact ⟨fun hv => hv.elim id fun hl => hl ▸ hm, Or.inl⟩
    · simp [hf, hm]
  · change plan publication.calls = false at hs
    simp only [hs, Bool.false_eq_true, if_false, true_and]
    have hi : (({ publication with movedGeneration := none }).called
        { publication.disk with
          destination := publication.disk.destination.map (.removeGeneration name) }).Idle
        (some (directory.removeGeneration name))
        { state | state ∈ publication.visited ∨ state = some (directory.removeGeneration name) } := by
      refine ⟨hu, rfl, by rw [ht]; rfl, fun state => ?_, .inr rfl⟩
      simp [called, ht]
    refine yields_perform (fun _ => ⟨⟨_, rfl⟩, ?_⟩) fun _ => ?_
    · exact hi.called hi.stays
    · apply Idle.yields_removeStaging
      exact hi.called hi.stays

def Holds (complete : γ → Bool) (content : Option (String × γ))
    (directory : Option (CacheDirectory γ)) : Prop :=
  match content with
  | none => directory = none
  | some (name, generation) => complete generation = true ∧
      ∃ there, directory = some there ∧ there.Names name generation

theorem Holds.sound {content : Option (String × γ)} {directory : Option (CacheDirectory γ)}
    (hh : Holds complete content directory) : Sound complete directory := by
  rcases content with _ | ⟨name, generation⟩
  · rw [show directory = none from hh]
    exact nofun
  · obtain ⟨hw, there, rfl, hn⟩ := hh
    exact sound_some ⟨name, generation, hn, hw⟩

/-- The failing call of a publication is the synchronization after the visible change. -/
def FailsLate (plan : Nat → Bool) (replaceExisting : Bool) (disk : Disk γ) (name : String) : Prop :=
  match disk.destination with
  | none => plan 0 = false ∧ plan 1 = true
  | some directory => replaceExisting = true ∧ directory.generations.lookup name = none ∧
      plan 0 = false ∧ plan 1 = false ∧ SwitchLate plan 2

variable (complete)

/-- After a late failure: the new cache is in place and the flags deny it. -/
structure Stranded (replaced : Bool) (name : String) (generation : γ)
    (publication : Publication γ) : Prop where
  seen : publication.Seen complete
  unpublished : publication.published = false
  uncommitted : publication.committed = false
  moved : publication.movedGeneration = if replaced then some name else none
  calls : replaced = true → publication.calls = 7
  there : ∃ directory, publication.disk.destination = some directory ∧
    directory.Names name generation ∧ some directory ∈ publication.visited

variable (before)

structure Successful (name : String) (generation : γ) (publication : Publication γ) : Prop where
  restorable : publication.Restorable complete before
  published : publication.published = true
  uncommitted : publication.committed = false
  there : publication.Restored (some (name, generation))

structure Failed (publication : Publication γ) : Prop where
  restorable : publication.Restorable complete before
  unpublished : publication.published = false
  uncommitted : publication.committed = false

/-- What publishing over `before` does: it succeeds, or fails with the flags in order, or fails late
and leaves the new cache stranded. -/
abbrev Publishes (name : String)
    (generation : γ) (late : Prop) (publication : Publication γ) (m : PublicationM γ Unit) : Prop :=
  m.Yields publication (fun _ after => after.Successful complete before name generation ∧ ¬ late)
    (fun _ after => after.Failed complete before ∧ ¬ late ∨
      after.Stranded complete before.isSome name generation ∧ late)

variable {before} {complete}

section

variable {disk : Disk γ} {replaceExisting : Bool} {nonce : Nat} {name : String} {generation : γ}

theorem restorable_begin (hh : Holds complete before disk.destination) :
    (begin disk replaceExisting nonce).Restorable complete before := by
  refine ⟨?_, hh.sound, ?_⟩
  · intro destination hl
    rw [mem_singleton.mp hl]
    exact hh.sound
  · rcases before with _ | ⟨old, content⟩
    · exact ⟨rfl, .inl ⟨rfl, hh⟩⟩
    · obtain ⟨hw, directory, ht, hn⟩ := hh
      exact ⟨hw, hn.readable, nofun, directory, ht, hn.listed, .inl ⟨rfl, hn.current⟩⟩

theorem yields_publishNew (ha : disk.destination = none)
    (hst : Holds complete (some (name, generation)) disk.staging) :
    Publishes complete none name generation (FailsLate plan replaceExisting disk name)
      (begin disk replaceExisting nonce) (publishNew plan) := by
  have hi : (begin disk replaceExisting nonce).Restorable complete none := restorable_begin ha
  have hs := hst.sound
  obtain ⟨hw, directory, ht, hn⟩ := hst
  have hl : FailsLate plan replaceExisting disk name ↔ plan 0 = false ∧ plan 1 = true := by
    rw [FailsLate, ha]
  refine .bind (yields_perform (fun hf => ?_) fun hsu => ?_)
  · refine .inl ⟨⟨hi.unchanged rfl, rfl, rfl⟩, fun hfa => ?_⟩
    exact absurd ((hl.mp hfa).1.symm.trans hf) (by decide)
  · have hr : ((begin disk replaceExisting nonce).called ⟨disk.staging, none⟩).Seen complete :=
      hi.seen.called hs
    refine .bind (yields_perform (fun hf => ?_) fun hsy => ?_)
    · refine .inr ⟨⟨hr.called hs, rfl, rfl, rfl, (by simp), directory, ht, hn, ?_⟩, hl.mpr ⟨hsu, hf⟩⟩
      simp [called, begin, ht]
    · refine yields_modify _ |>.mpr ⟨⟨⟨hr.called hs, hs, rfl, .inr ⟨rfl, rfl⟩⟩,
        rfl, rfl, directory, ht, hn⟩, fun hfa => ?_⟩
      exact absurd ((hl.mp hfa).2.symm.trans hsy) (by decide)

structure Moved (complete : γ → Bool) (old : String) (content : γ) (name : String) (generation : γ)
    (publication : Publication γ) : Prop where
  restorable : publication.Restorable complete (some (old, content))
  unpublished : publication.published = false
  uncommitted : publication.committed = false
  previous : publication.previousGeneration = some old
  moved : publication.movedGeneration = some name
  listed : ∃ directory, publication.disk.destination = some directory ∧
    directory.generations.lookup name = some generation

variable {old : String} {content : γ}

section

variable (hm : publication.Moved complete old content name generation)
include hm

theorem yields_switch (hc : publication.calls = 2) (hre : pointerName (name ++ "\n") = .ok name)
    (hwh : complete generation = true) :
    (publishGenerationPointer plan name nonce).Yields publication
      (fun _ after => ({ after with published := true }).Successful complete (some (old, content))
        name generation ∧ ¬ SwitchLate plan 2)
      (fun _ after => after.Failed complete (some (old, content)) ∧ ¬ SwitchLate plan 2 ∨
        after.Stranded complete true name generation ∧ SwitchLate plan 2) := by
  obtain ⟨directory, ht, had⟩ := hm.listed
  obtain ⟨hw, hr, ho, same, hle, hl, hst⟩ := hm.restorable.undoable
  obtain rfl : directory = same := some.inj (ht.symm.trans hle)
  have hcu := (hst.resolve_right fun hd => absurd (hm.unpublished.symm.trans hd.1) nofun).2
  have hsw : publication.Switching complete name generation :=
    ⟨hm.restorable.seen, directory, ht, hm.restorable.sound directory ht, had⟩
  have hk : ∀ {after : Publication γ} {reached : CacheDirectory γ},
      SameFlags publication after → after.disk.destination = some reached →
      reached.generations = directory.generations := by
    intro after reached hfl ha
    have hg := hfl.generations
    rw [ha, ht] at hg
    exact some.inj hg
  refine (yields_publishGenerationPointer hsw hre hwh).mono ?_ ?_
  · intro _ after hs
    obtain ⟨reached, ha, hn⟩ := hs.named
    rw [← hc]
    refine ⟨⟨⟨hs.switching.seen, ha ▸ sound_some ⟨_, _, hn, hwh⟩, hw,
      hr, hs.flags.movedGeneration ▸ ho, reached, ha, ?_, .inr ⟨rfl, ?_⟩⟩,
      rfl, hs.flags.committed.trans hm.uncommitted, reached, ha, hn⟩,
      hs.unfaulted⟩
    · rw [hk hs.flags ha]
      exact hl
    · exact hs.flags.previousGeneration.trans hm.previous
  · rintro _ after ⟨-, hf⟩
    rw [← hc]
    have hu := hf.flags.published.trans hm.unpublished
    have hun := hf.flags.committed.trans hm.uncommitted
    obtain ⟨reached, ha, hso, -⟩ := hf.switching.destination
    rcases hf.outcome with ⟨hla, hca, landed, ht, hn, hv⟩ | ⟨he, same⟩
    · refine .inr ⟨⟨hf.switching.seen, hu, hun, ?_, fun _ => ?_, landed, ht, hn, hv⟩, hla⟩
      · exact hf.flags.movedGeneration.trans hm.moved
      · rw [hca, hc]
    · refine .inl ⟨⟨⟨hf.switching.seen, ha ▸ sound_some hso, hw, hr,
        hf.flags.movedGeneration ▸ ho, reached, ha, ?_, .inl ⟨hu, ?_⟩⟩,
        hu, hun⟩, he⟩
      · rw [hk hf.flags ha]
        exact hl
      · rw [ha, ht] at same
        exact (some.inj same).trans hcu

theorem Moved.unchanged :
    (publication.called publication.disk).Moved complete old content name generation :=
  ⟨hm.restorable.unchanged rfl, hm.unpublished, hm.uncommitted, hm.previous, hm.moved, hm.listed⟩

end

def installed (disk : Disk γ) (replaceExisting : Bool) (nonce : Nat) (old name : String)
    (generation : γ) : Publication γ :=
  { (begin disk replaceExisting nonce).called
      { destination := disk.destination.map (.install name generation)
        staging := disk.staging.map (.removeGeneration name) } with
    previousGeneration := some old
    movedGeneration := some name }

theorem moved_installed (hn : directory.Names old content)
    (hw : complete content = true) (ht : disk.destination = some directory)
    (ha : directory.generations.lookup name = none) :
    (installed disk replaceExisting nonce old name generation).Moved complete old content name
      generation := by
  have hi : (begin disk replaceExisting nonce).Restorable complete (some (old, content)) :=
    restorable_begin ⟨hw, directory, ht, hn⟩
  have hr : disk.destination.map (.install name generation) =
      some (directory.install name generation) := by
    rw [ht]
    rfl
  have hs : Sound complete (disk.destination.map (.install name generation)) :=
    hr ▸ sound_some ⟨old, content, hn.install, hw⟩
  have hd : some name ≠ some old := fun hsa => by
    rw [some.inj hsa] at ha
    exact absurd (hn.listed.symm.trans ha) nofun
  have hse : (installed disk replaceExisting nonce old name generation).Seen complete :=
    hi.seen.called hs
  exact ⟨⟨hse, hs, hw, hn.readable, hd, _, hr, hn.install.listed,
    .inl ⟨rfl, hn.current⟩⟩, rfl, rfl, rfl, rfl, _, hr,
    lookup_install_self ha⟩

theorem yields_installed (hn : directory.Names old content)
    (hw : complete content = true) (ht : disk.destination = some directory)
    (ha : directory.generations.lookup name = none) (hr : replaceExisting = true)
    (hre : pointerName (name ++ "\n") = .ok name) (hwh : complete generation = true) :
    Publishes complete (some (old, content)) name generation
      (FailsLate plan replaceExisting disk name) (begin disk replaceExisting nonce) (do
      perform plan "install prepared prompt cache generation" (.generation name) fun disk =>
        { destination := disk.destination.map (.install name generation)
          staging := disk.staging.map (.removeGeneration name) }
      modify fun publication => { publication with
        previousGeneration := some old
        movedGeneration := some name }
      syncDirectory plan .generations
      publishGenerationPointer plan name (begin disk replaceExisting nonce).nonce
      modify fun publication => { publication with published := true }) := by
  have hi : (begin disk replaceExisting nonce).Restorable complete (some (old, content)) :=
    restorable_begin ⟨hw, directory, ht, hn⟩
  have hl : FailsLate plan replaceExisting disk name ↔
      plan 0 = false ∧ plan 1 = false ∧ SwitchLate plan 2 := by
    rw [FailsLate, ht]
    simp only [hr, ha, true_and]
  have hm : (installed disk replaceExisting nonce old name generation).Moved complete old content
      name generation := moved_installed hn hw ht ha
  refine .bind (yields_perform (fun hfa => ?_) fun hrd => ?_)
  · refine .inl ⟨⟨hi.unchanged rfl, rfl, rfl⟩, fun hf => ?_⟩
    exact absurd ((hl.mp hf).1.symm.trans hfa) nofun
  · refine .bind (yields_modify _ |>.mpr ?_)
    refine .bind (yields_perform (fun hfa => ?_) fun hsy => ?_)
    · refine .inl ⟨⟨hm.unchanged.restorable, rfl, rfl⟩, fun hf => ?_⟩
      exact absurd ((hl.mp hf).2.1.symm.trans hfa) nofun
    · refine .bind ((yields_switch hm.unchanged rfl hre hwh).mono ?_ ?_)
      · rintro _ after ⟨hsu, he⟩
        exact yields_modify _ |>.mpr ⟨hsu, fun hf => he (hl.mp hf).2.2⟩
      · rintro _ after (⟨hfd, he⟩ | ⟨hst, hs⟩)
        · exact .inl ⟨hfd, fun hf => he (hl.mp hf).2.2⟩
        · exact .inr ⟨hst, hl.mpr ⟨hrd, hsy, hs⟩⟩

theorem yields_publishReplacement (hh : Holds complete (some (old, content)) disk.destination)
    (hsd : Holds complete (some (name, generation)) disk.staging) :
    Publishes complete (some (old, content)) name generation
      (FailsLate plan replaceExisting disk name) (begin disk replaceExisting nonce)
      (publishReplacement plan) := by
  have hi : (begin disk replaceExisting nonce).Restorable complete (some (old, content)) :=
    restorable_begin hh
  obtain ⟨hw, directory, ht, hn⟩ := hh
  obtain ⟨hwh, stagedDirectory, hst, hs⟩ := hsd
  have hla : FailsLate plan replaceExisting disk name ↔ replaceExisting = true ∧
      directory.generations.lookup name = none ∧ plan 0 = false ∧ plan 1 = false ∧
      SwitchLate plan 2 := by
    rw [FailsLate, ht]
  have hu : (begin disk replaceExisting nonce).Failed complete (some (old, content)) :=
    ⟨hi, rfl, rfl⟩
  refine .bind (yields_get.mpr ?_)
  by_cases hr : replaceExisting = true
  · rw [if_neg (by simp [begin, hr])]
    have hrd : resolveRoot (begin disk replaceExisting nonce).disk.destination =
        .ok (old, content) := by
      show resolveRoot disk.destination = _
      rw [ht]
      exact hn.resolve_eq
    have hre : resolveRoot (begin disk replaceExisting nonce).disk.staging =
        .ok (name, generation) := by
      show resolveRoot disk.staging = _
      rw [hst]
      exact hs.resolve_eq
    rw [hrd, hre]
    refine .bind (yields_pure _ |>.mpr ?_)
    refine .bind (yields_pure _ |>.mpr ?_)
    dsimp only
    cases hl : directory.generations.lookup name with
    | some present =>
      rw [if_pos (by simp [begin, ht, hl])]
      exact .inl ⟨hu, fun hf => absurd (hl.symm.trans (hla.mp hf).2.1) nofun⟩
    | none =>
      rw [if_neg (by simp [begin, ht, hl])]
      exact yields_installed hn hw ht hl hr hs.readable hwh
  · rw [if_pos (by simp [begin, hr])]
    exact .inl ⟨hu, fun hf => hr (hla.mp hf).1⟩

theorem yields_publish (hh : Holds complete before disk.destination)
    (hs : Holds complete (some (name, generation)) disk.staging) :
    Publishes complete before name generation (FailsLate plan replaceExisting disk name)
      (begin disk replaceExisting nonce) (publish plan complete) := by
  have hi : inspect complete disk.staging = .ok () := by
    obtain ⟨hw, directory, ht, hn⟩ := hs
    unfold inspect
    rw [ht, resolveRoot, hn.resolve_eq, ok_bind]
    exact if_pos hw
  refine .bind (yields_get.mpr ?_)
  rw [show (begin disk replaceExisting nonce).disk = disk from rfl, hi]
  refine .bind (yields_pure _ |>.mpr ?_)
  rcases before with _ | ⟨old, content⟩
  · have ha : disk.destination = none := hh
    rw [if_pos (by simp [ha])]
    exact yields_publishNew ha hs
  · have hp : disk.destination.isSome := by
      obtain ⟨-, directory, ht, -⟩ := hh
      rw [ht]
      rfl
    rw [if_neg (by simpa using isSome_iff_ne_none.mp hp)]
    exact yields_publishReplacement hh hs

end

def resolution (publication : Publication γ) : Option (Except PersistenceError (String × γ)) :=
  publication.disk.destination.map resolve

theorem Restored.resolution_eq (hr : publication.Restored before) :
    publication.resolution = before.map .ok := by
  unfold resolution
  rcases before with _ | ⟨name, generation⟩
  · rw [show publication.disk.destination = none from hr]
    rfl
  · obtain ⟨directory, ht, hn⟩ := hr
    rw [ht, map_some, hn.resolve_eq]
    rfl

/-- After a late failure every ending leaves the new directory, without its generation if it had
replaced one. -/
theorem yields_conclude_stranded {replaced : Bool} {generation : γ} (ending : Ending)
    (hs : publication.Stranded complete replaced name generation) :
    (conclude plan ending).Yields publication
      (fun _ after => ∃ directory states, directory.Names name generation ∧
        after.Idle (some (if replaced && !plan 7 then directory.removeGeneration name
          else directory)) states ∧
        ((∀ state ∈ states, Sound complete state) ↔ (replaced && !plan 7) = false))
      (fun _ _ => False) := by
  obtain ⟨directory, ht, hn, hv⟩ := hs.there
  have hc : ∀ {destination states}, (∀ later : Publication γ, later.Idle destination states →
      Leaves (Idle destination states) later (rollbackInner plan)) :=
    fun later hi => hi.yields_rollbackInner
  have hk : ∀ {destination states}, (∀ later : Publication γ, later.Idle destination states →
      ({ later with committed := true }).Idle destination states) :=
    fun later hi => ⟨hi.unpublished, hi.unmoved, hi.stays, hi.visits, hi.member⟩
  cases replaced with
  | false =>
    have hi : publication.Idle (some directory) { state | state ∈ publication.visited } :=
      ⟨hs.unpublished, hs.moved, ht, fun _ => .rfl, hv⟩
    refine (yields_conclude_of ending (fun _ => hs.unpublished) hs.uncommitted
      hi.yields_rollbackInner hc hk).imp ?_
    exact fun _ _ hi => ⟨directory, _, hn, hi, fun _ => rfl, fun _ => hs.seen⟩
  | true =>
    have hr : (rollbackInner plan).Yields publication _ _ :=
      yields_rollbackInner_moved hs.unpublished hs.moved ht hn hv
    rw [hs.calls rfl] at hr
    refine (yields_conclude_of ending (fun _ => hs.unpublished) hs.uncommitted hr hc hk).imp ?_
    intro _ after hi
    cases hp : plan 7 with
    | true =>
      simp only [hp] at hi
      refine ⟨directory, _, hn, hi, fun _ => rfl, fun _ state hm => ?_⟩
      exact hs.seen state (hm.resolve_right (by simp))
    | false =>
      simp only [hp, Bool.false_eq_true, true_and] at hi
      refine ⟨directory, _, hn, hi, fun hso => ?_, nofun⟩
      -- `CURRENT` names the generation that is no longer there.
      obtain ⟨other, content, hna, -⟩ := hso _ (.inr rfl) _ rfl
      have hsa : other = name := by
        have hte := hna.current.symm.trans hn.current
        exact String.append_left_inj _ |>.mp (some.inj hte)
      rw [hsa] at hna
      exact absurd (hna.listed.symm.trans lookup_removeGeneration_self) nofun

/-- Without later failures nothing is faulted. -/
theorem not_faulted (hc : ∀ call ≥ first, plan call = false) : ¬ Faulted plan first := by
  rintro ⟨call, hl, hf⟩
  exact absurd ((hc call hl).symm.trans hf) nofun

theorem Recovered.seen (hr : publication.Recovered complete plan before first) :
    publication.Seen complete :=
  hr.restorable.seen

theorem of_yields {α : Type} {m : PublicationM γ α} {holds : α → Publication γ → Prop}
    (hy : m.Yields publication holds (fun _ _ => False)) :
    ∃ value, (m.outcome publication).1 = .ok value ∧ holds value (m.outcome publication).2 := by
  cases ran : (m.outcome publication).1 with
  | ok value => exact ⟨value, rfl, hy.of_ok ran⟩
  | error fault => exact (hy.of_error ran).elim

end Publication

open Publication

/-- For every destination that is absent or complete, every complete staged cache, every choice of
failing calls and every ending: while publishing, the destination stays sound. It does so to the
end, and a publication that failed is undone, exactly if the failing call is not the
synchronization after the visible change (for soundness: unless that was the switch of a
replacement and the removal of the generation it names succeeds). A publication that succeeded is
undone by a rollback and kept by a commit. -/
theorem publication_reversible {γ : Type} (complete : γ → Bool) (plan : Nat → Bool)
    (replaceExisting : Bool) (nonce : Nat) (disk : Disk γ) (before : Option (String × γ))
    (name : String) (generation : γ) (ending : Ending)
    (holds : Holds complete before disk.destination)
    (staged : Holds complete (some (name, generation)) disk.staging) :
    let attempt := (publish plan complete).outcome (begin disk replaceExisting nonce)
    let ended := (conclude plan ending).outcome attempt.2
    let late := FailsLate plan replaceExisting disk name
    let clear := ∀ call ≥ attempt.2.calls, plan call = false
    (∀ destination ∈ attempt.2.visited, Sound complete destination) ∧
      ((∀ destination ∈ ended.2.visited, Sound complete destination) ↔
        ¬ (late ∧ before.isSome ∧ plan 7 = false)) ∧
      (attempt.1 ≠ .ok () → clear → (ended.2.resolution = before.map .ok ↔ ¬ late)) ∧
      (attempt.1 = .ok () → ending ≠ .commit → clear → ended.2.resolution = before.map .ok) ∧
      (attempt.1 = .ok () → ending = .commit →
        (ended.1 = .ok (.ok ()) → ended.2.resolution = some (.ok (name, generation))) ∧
        (clear → ended.1 = .ok (.ok ()))) := by
  intro attempt ended late clear
  have hp : (publish plan complete).Yields (begin disk replaceExisting nonce) _ _ :=
    yields_publish holds staged
  cases ran : attempt.1 with
  | ok value =>
    obtain ⟨hs, he⟩ := hp.of_ok ran
    have hk : ¬ (late ∧ before.isSome ∧ plan 7 = false) := fun hfa => he hfa.1
    by_cases hc : ending = .commit
    · subst hc
      obtain ⟨result, hre, hr2, ho⟩ := of_yields (yields_conclude_commit hs.published hs.restorable)
      refine ⟨hs.restorable.seen, ⟨fun _ => hk, fun _ => hr2.seen⟩,
        fun hf => absurd rfl hf, fun _ hot => absurd rfl hot, fun _ _ => ⟨?_, ?_⟩⟩
      · intro hg
        obtain rfl : result = .ok () := Except.ok.inj (hre.symm.trans hg)
        have hsa := (ho.resolve_right fun hf => hf.1 rfl).2
        show Option.map _ ended.2.disk.destination = _
        rw [hsa]
        exact hs.there.resolution_eq
      · intro clear
        have hg := (ho.resolve_right fun hf => not_faulted clear hf.2).1
        exact hg ▸ hre
    · obtain ⟨result, hre, hr⟩ := of_yields (yields_conclude_recovers ending
        (fun hsa => absurd hsa hc) hs.uncommitted hs.restorable)
      exact ⟨hs.restorable.seen, ⟨fun _ => hk, fun _ => hr.seen⟩,
        fun hf => absurd rfl hf,
        fun _ _ clear => (hr.restored (not_faulted clear)).resolution_eq,
        fun _ hsa => absurd hsa hc⟩
  | error fault =>
    rcases hp.of_error ran with ⟨hf, he⟩ | ⟨hst, hfa⟩
    · obtain ⟨result, hre, hr⟩ := of_yields (yields_conclude_recovers ending
        (fun _ => hf.unpublished) hf.uncommitted hf.restorable)
      exact ⟨hf.restorable.seen, ⟨fun _ hfa => he hfa.1, fun _ => hr.seen⟩,
        fun _ clear => ⟨fun _ => he,
          fun _ => (hr.restored (not_faulted clear)).resolution_eq⟩, nofun, nofun⟩
    · obtain ⟨result, hre, directory, states, hn, hi, hso⟩ := of_yields
        (yields_conclude_stranded ending hst)
      refine ⟨hst.seen, ?_, fun _ clear => ⟨fun hsa => ?_, fun he => absurd hfa he⟩, nofun, nofun⟩
      · rw [show (∀ destination ∈ ended.2.visited, Sound complete destination) ↔
          ∀ state ∈ states, Sound complete state from
            ⟨fun hv state hm => hv state ((hi.visits state).mpr hm),
              fun hsd state hv => hsd state ((hi.visits state).mp hv)⟩, hso]
        have hh : late := hfa
        cases before with
        | none => simp
        | some content => simp [hh]
      · -- The new directory is still there, without its generation if it replaced one.
        exfalso
        rw [resolution, hi.stays] at hsa
        rcases before with _ | ⟨old, content⟩
        · cases hsa
        · have hpl : plan 7 = false := clear 7 (le_of_eq (hst.calls rfl))
          simp only [isSome_some, hpl, Bool.not_false, Bool.and_self] at hsa
          exact hn.resolve_removed _ (some.inj hsa)

def cacheOf (name : String) (generation : Nat) : CacheDirectory Nat where
  current := some (name ++ "\n")
  generations := [(name, generation)]
  temporaries := []

theorem holds_cacheOf {generation : Nat} (hr : pointerName (name ++ "\n") = .ok name) :
    Holds (fun _ => true) (some (name, generation)) (some (cacheOf name generation)) :=
  ⟨rfl, _, rfl, rfl, hr, by simp [cacheOf]⟩

theorem publication_reversible_replacement :
    let disk : Disk Nat := ⟨some (cacheOf "old" 1), some (cacheOf "new" 2)⟩
    let attempt := (publish (fun _ => false) fun _ => true).outcome (begin disk true 8)
    let ended := (conclude (fun _ => false) .rollback).outcome attempt.2
    attempt.1 = .ok () ∧ ended.2.resolution = some (.ok ("old", 1)) := by
  have hr := publication_reversible (fun _ => true) (fun _ => false) true 8
    ⟨some (cacheOf "old" 1), some (cacheOf "new" 2)⟩ (some ("old", 1)) "new" 2 .rollback
    (holds_cacheOf (by decide +kernel)) (holds_cacheOf (by decide +kernel))
  have hs : ((publish (fun _ => false) fun _ => true).outcome
      (begin ⟨some (cacheOf "old" 1), some (cacheOf "new" 2)⟩ true 8)).1 = .ok () := by
    decide +kernel
  exact ⟨hs, hr.2.2.2.1 hs nofun fun _ _ => rfl⟩

/-- A failing synchronization after the change: a new cache stays, and a replaced one is lost. -/
theorem late_failure_loses_cache :
    (let attempt := (publish (· = 1) fun _ => true).outcome
        (begin ⟨none, some (cacheOf "new" 2)⟩ false 8)
      let ended := (conclude (· = 1) .drop).outcome attempt.2
      attempt.1 ≠ .ok () ∧ ended.2.resolution = some (.ok ("new", 2))) ∧
    (let attempt := (publish (· = 6) fun _ => true).outcome
        (begin ⟨some (cacheOf "old" 1), some (cacheOf "new" 2)⟩ true 8)
      let ended := (conclude (· = 6) .drop).outcome attempt.2
      attempt.1 ≠ .ok () ∧ ended.2.resolution =
        some (.error (.malformedStorage "prompt-cache generation \"new\" is missing"))) := by
  decide +kernel

end Eredu.PromptCache
