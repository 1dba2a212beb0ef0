import Eredu.Foundation.Effect
import Eredu.Foundation.Utf8

/-!
# The reversible publication of a prompt cache

A prompt cache is a directory whose `CURRENT` file names one of the generations
beside it. A reversible publication puts a staged cache in the place of the
destination, or moves its generation into the destination and switches `CURRENT`,
and can undo either. The disk holds the two directories a publication touches. Its
renames, creations, writes, synchronizations and removals are atomic, and a plan
says which of them fail; a failing call changes nothing.
-/

namespace Eredu.PromptCache

inductive CachePath where
  | destination
  | parent
  | staging
  | generations
  | generation (name : String)
  | temporary (nonce : Nat)
  | current
  deriving DecidableEq, Repr

inductive PersistenceError where
  | io (action : String) (path : CachePath)
  | manifest
  | malformedStorage (message : String)
  | invalidPromptCachePath (path : CachePath)
  | promptCacheExists (path : CachePath)
  | invalidReversiblePublication (message : String)
  deriving DecidableEq, Repr

/-- A cache directory: the text of `CURRENT`, the generations and the temporary pointer files. -/
structure CacheDirectory (γ : Type) where
  current : Option String
  generations : List (String × γ)
  temporaries : List (Nat × String)
  deriving DecidableEq, Repr

/-- `str::trim`. -/
def trim (text : List Char) : List Char :=
  ((text.dropWhile Utf8.isWhitespace).reverse.dropWhile Utf8.isWhitespace).reverse

def onlyComponent (path : List Char) : Option (List Char) :=
  match path.splitOn '/' with
  | [] => none
  | first :: rest =>
    if first ∈ [[], ['.'], ['.', '.']] || rest.any (· ∉ [[], ['.']]) then none else some first

def pointerName (text : String) : Except PersistenceError String :=
  if text.utf8ByteSize = 0 ∨ text.utf8ByteSize > 256 then
    .error (.malformedStorage "prompt-cache generation pointer has an invalid length")
  else
    match onlyComponent (trim text.toList) with
    | none => .error (.malformedStorage "prompt-cache generation pointer is unsafe")
    | some name => .ok (String.ofList name)

namespace CacheDirectory

variable {γ : Type}

/-- `resolve_prompt_cache_root`: the name and the content of the active generation. -/
def resolve (directory : CacheDirectory γ) : Except PersistenceError (String × γ) :=
  match directory.current with
  | none => .error (.malformedStorage "prompt-cache generation pointer CURRENT is missing")
  | some text => do
    let name ← pointerName text
    match directory.generations.lookup name with
    | none => .error (.malformedStorage s!"prompt-cache generation \"{name}\" is missing")
    | some generation => .ok (name, generation)

def install (name : String) (generation : γ) (directory : CacheDirectory γ) : CacheDirectory γ :=
  { directory with generations := directory.generations ++ [(name, generation)] }

def removeGeneration (name : String) (directory : CacheDirectory γ) : CacheDirectory γ :=
  { directory with generations := directory.generations.filter (·.1 ≠ name) }

def setTemporary (nonce : Nat) (text : String) (directory : CacheDirectory γ) : CacheDirectory γ :=
  { directory with
    temporaries := (nonce, text) :: directory.temporaries.filter (·.1 ≠ nonce) }

/-- The rename of a temporary file to `CURRENT`. -/
def switchTo (nonce : Nat) (directory : CacheDirectory γ) : CacheDirectory γ :=
  { directory with
    current := directory.temporaries.lookup nonce
    temporaries := directory.temporaries.filter (·.1 ≠ nonce) }

end CacheDirectory

structure Disk (γ : Type) where
  destination : Option (CacheDirectory γ)
  staging : Option (CacheDirectory γ)
  deriving DecidableEq, Repr

/-- A publication with the disk it works on, the number of calls it has made and the destination
after each of them. -/
structure Publication (γ : Type) where
  disk : Disk γ
  calls : Nat
  visited : List (Option (CacheDirectory γ))
  replaceExisting : Bool
  previousGeneration : Option String
  movedGeneration : Option String
  published : Bool
  committed : Bool
  nonce : Nat
  deriving DecidableEq, Repr

abbrev PublicationM (γ : Type) := Effect (Publication γ) PersistenceError

namespace Publication

variable {γ : Type} (disk : Disk γ)

def begin (replaceExisting : Bool) (nonce : Nat) : Publication γ where
  disk := disk
  calls := 0
  visited := [disk.destination]
  replaceExisting := replaceExisting
  previousGeneration := none
  movedGeneration := none
  published := false
  committed := false
  nonce := nonce

def called (publication : Publication γ) : Publication γ :=
  { publication with
    disk := disk
    calls := publication.calls + 1
    visited := publication.visited ++ [disk.destination] }

section

variable (plan : Nat → Bool) (action : String) (path : CachePath)

def perform (change : Disk γ → Disk γ) : PublicationM γ Unit := do
  let publication ← get
  if plan publication.calls then
    set (publication.called publication.disk)
    Effect.fail (.io action path)
  else
    set (publication.called (change publication.disk))

def onDestination (change : CacheDirectory γ → CacheDirectory γ) : PublicationM γ Unit :=
  perform plan action path fun disk => { disk with destination := disk.destination.map change }

def syncDirectory : PublicationM γ Unit :=
  perform plan "synchronize cache directory" path id

def publishGenerationPointer (generationName : String) (nonce : Nat) : PublicationM γ Unit := do
  onDestination plan "create prompt cache generation pointer" (.temporary nonce)
    (.setTemporary nonce "")
  onDestination plan "write prompt cache generation pointer" (.temporary nonce)
    (.setTemporary nonce (generationName ++ "\n"))
  perform plan "sync prompt cache generation pointer" (.temporary nonce) id
  onDestination plan "switch prompt cache generation" .current (.switchTo nonce)
  syncDirectory plan .destination

end

def resolveRoot (directory : Option (CacheDirectory γ)) : Except PersistenceError (String × γ) :=
  match directory with
  | none => .error (.malformedStorage "prompt-cache generation pointer CURRENT is missing")
  | some directory => directory.resolve

/-- `inspect_prompt_cache`, for a given validation of a generation's manifest and shards. -/
def inspect (complete : γ → Bool) (directory : Option (CacheDirectory γ)) :
    Except PersistenceError Unit := do
  let (_, generation) ← resolveRoot directory
  if complete generation then .ok () else .error .manifest

section

variable (plan : Nat → Bool)

def publishNew : PublicationM γ Unit := do
  perform plan "publish prepared prompt cache" .destination fun disk =>
    { destination := disk.staging, staging := none }
  syncDirectory plan .parent
  modify fun publication => { publication with published := true }

/-- The staged generation moves into the destination and `CURRENT` is switched to it. -/
def publishReplacement : PublicationM γ Unit := do
  let publication ← get
  if !publication.replaceExisting then
    Effect.fail (.promptCacheExists .destination)
  else do
    let (previousGeneration, _) ← Effect.ofResult (resolveRoot publication.disk.destination)
    let (generationName, generation) ← Effect.ofResult (resolveRoot publication.disk.staging)
    if publication.disk.destination.any fun directory =>
        (directory.generations.lookup generationName).isSome then
      Effect.fail (.invalidPromptCachePath (.generation generationName))
    else do
      perform plan "install prepared prompt cache generation" (.generation generationName)
        fun disk =>
          { destination := disk.destination.map (.install generationName generation)
            staging := disk.staging.map (.removeGeneration generationName) }
      modify fun publication => { publication with
        previousGeneration := some previousGeneration
        movedGeneration := some generationName }
      syncDirectory plan .generations
      publishGenerationPointer plan generationName publication.nonce
      modify fun publication => { publication with published := true }

/-- Makes the prepared cache visible while retaining an exact rollback path. -/
def publish (complete : γ → Bool) : PublicationM γ Unit := do
  let publication ← get
  if publication.published || publication.movedGeneration.isSome then
    Effect.fail (.invalidReversiblePublication "publication was already attempted")
  else do
    Effect.ofResult (inspect complete publication.disk.staging)
    if publication.disk.destination.isNone then
      publishNew plan
    else
      publishReplacement plan

def removeStaging (action : String) : PublicationM γ Unit := do
  let publication ← get
  if publication.disk.staging.isSome then
    perform plan action .staging fun disk => { disk with staging := none }

def commit : PublicationM γ Unit := do
  let publication ← get
  if !publication.published then
    Effect.fail (.invalidReversiblePublication "an unpublished cache cannot commit")
  else do
    removeStaging plan "remove committed prompt cache staging directory"
    modify fun publication => { publication with committed := true }

/-- The first part of `rollback_inner`: the visible change is undone. -/
def withdraw : PublicationM γ Unit := do
  let publication ← get
  if publication.published then
    match publication.previousGeneration with
    | some previous => publishGenerationPointer plan previous (publication.nonce ^^^ 1)
    | none =>
      if publication.disk.destination.isSome then do
        perform plan "remove rolled-back prompt cache" .destination fun disk =>
          { disk with destination := none }
        syncDirectory plan .parent

def removeMoved : PublicationM γ Unit := do
  let publication ← get
  set { publication with movedGeneration := none }
  match publication.movedGeneration with
  | none => pure ()
  | some generation =>
    if publication.disk.destination.any fun directory =>
        (directory.generations.lookup generation).isSome then do
      onDestination plan "remove rolled-back prompt cache generation" (.generation generation)
        (.removeGeneration generation)
      syncDirectory plan .generations

def rollbackInner : PublicationM γ Unit := do
  withdraw plan
  removeMoved plan
  removeStaging plan "remove rolled-back prompt cache staging directory"

def rollback : PublicationM γ Unit := do
  rollbackInner plan
  modify fun publication => { publication with committed := true }

def drop : PublicationM γ Unit := do
  let publication ← get
  if !publication.committed then do
    let _ ← Effect.attempt (rollbackInner plan)

inductive Ending where
  | commit
  | rollback
  | drop
  deriving DecidableEq, Repr

def conclude (ending : Ending) : PublicationM γ (Except PersistenceError Unit) := do
  let result ← Effect.attempt (match ending with
    | .commit => commit plan
    | .rollback => rollback plan
    | .drop => pure ())
  drop plan
  return result

end

end Publication

end Eredu.PromptCache
