import Eredu.Foundation.Checked
import Eredu.Foundation.Utf8
import Mathlib.Data.List.Sort

/-!
# Aliases of published recipes

An alias names an output or another alias. `validateRecipeAliases` follows the
declarations of every alias and remembers what it has resolved, and fails where it
meets an alias that it is following already.
-/

namespace Eredu.Checkpoint

open List
open Effect (bind_eq_ok ok_bind)

structure RecipeAlias where
  name : String
  destination : String
  deriving DecidableEq, Repr

inductive RecipeError where
  | emptyAliasName
  | duplicateAlias (name : String)
  | aliasOutputCollision (name : String)
  | invalidAliasDestination (name destination : String)
  | aliasCycle (name : String)
  deriving DecidableEq, Repr

/-- A map of names: the first entry counts. -/
abbrev Names := List (String × String)

def blank (name : String) : Bool := name.toList.all Utf8.isWhitespace

def declareAlias (outputs : List String) (declarations : Names) (declaration : RecipeAlias) :
    Except RecipeError Names := do
  reject .emptyAliasName (blank declaration.name)
  reject (.invalidAliasDestination declaration.name declaration.destination)
    (blank declaration.destination)
  reject (.aliasOutputCollision declaration.name) (declaration.name ∈ outputs)
  reject (.duplicateAlias declaration.name) (declaration.name ∈ declarations.map Prod.fst)
  return declarations ++ [(declaration.name, declaration.destination)]

theorem unvisited_lt {declarations : Names} {visiting : List String} {name destination : String}
    (hv : name ∉ visiting) (hd : declarations.lookup name = some destination) :
    (declarations.filter (·.1 ∉ name :: visiting)).length <
      (declarations.filter (·.1 ∉ visiting)).length := by
  have hs : declarations.filter (·.1 ∉ name :: visiting) =
      (declarations.filter (·.1 ∉ visiting)).filter (·.1 ≠ name) := by
    rw [filter_filter]
    exact filter_congr fun entry _ => by simp
  obtain ⟨before, after, rfl, _⟩ := lookup_eq_some_iff.mp hd
  rw [hs, length_filter_lt_length_iff_exists]
  exact ⟨(name, destination), mem_filter.mpr ⟨by simp, by simpa using hv⟩, by simp⟩

/-- The names that are defined and where each alias points. -/
structure AliasGraph where
  outputs : List String
  declarations : Names

section

variable (graph : AliasGraph)

/-- A call that returns leaves `visiting` as it was, so only the map of what is resolved comes back. -/
def resolve (resolved : Names) (visiting : List String) (name : String) :
    Except RecipeError (String × Names) :=
  match resolved.lookup name with
  | some owner => .ok (owner, resolved)
  | none =>
    if name ∈ visiting then
      .error (.aliasCycle name)
    else
      match _ : graph.declarations.lookup name with
      -- Only declared aliases are resolved.
      | none => .error (.invalidAliasDestination name "")
      | some destination =>
        if destination ∈ graph.outputs then
          .ok (destination, (name, destination) :: resolved)
        else if (graph.declarations.lookup destination).isSome then do
          let (owner, resolved) ← resolve resolved (name :: visiting) destination
          return (owner, (name, owner) :: resolved)
        else
          .error (.invalidAliasDestination name destination)
termination_by (graph.declarations.filter (·.1 ∉ visiting)).length
decreasing_by exact unvisited_lt ‹_› ‹_›

/-- Following the declarations of `name` for so many steps leads to the output `owner`. -/
inductive Leads : Nat → String → String → Prop where
  | output {name destination : String} (hd : graph.declarations.lookup name = some destination)
      (ho : destination ∈ graph.outputs) : Leads 0 name destination
  | next {steps : Nat} {name destination owner : String}
      (hd : graph.declarations.lookup name = some destination) (ho : destination ∉ graph.outputs)
      (hl : Leads steps destination owner) : Leads (steps + 1) name owner

end

def resolveRoot (graph : AliasGraph) (resolved : Names) (name : String) :
    Except RecipeError Names := do
  let (_, resolved) ← resolve graph resolved [] name
  return resolved

def validateRecipeAliases (outputs : List String) (aliases : List RecipeAlias) :
    Except RecipeError Names := do
  let declarations ← aliases.foldlM (declareAlias outputs) []
  ((declarations.map Prod.fst).insertionSort (· ≤ ·)).foldlM
    (resolveRoot ⟨outputs, declarations⟩) []

variable {graph : AliasGraph} {outputs : List String} {declarations resolved : Names}
  {visiting : List String} {name owner : String} {steps : Nat}

theorem Leads.unique {other : String} {more : Nat} (hl : Leads graph steps name owner)
    (ho : Leads graph more name other) : steps = more ∧ owner = other := by
  induction hl generalizing more other with
  | output hd hm =>
    cases ho with
    | output hf _ => exact ⟨rfl, Option.some.inj (hd.symm.trans hf)⟩
    | next hf hn _ => exact absurd (Option.some.inj (hd.symm.trans hf) ▸ hm) hn
  | next hd hn _ ih =>
    cases ho with
    | output hf hm => exact absurd (Option.some.inj (hf.symm.trans hd) ▸ hm) hn
    | next hf _ hl =>
      obtain ⟨rfl, rfl⟩ := ih (Option.some.inj (hd.symm.trans hf) ▸ hl)
      exact ⟨rfl, rfl⟩

theorem Leads.declared (hl : Leads graph steps name owner) :
    (graph.declarations.lookup name).isSome := by
  cases hl with
  | output hd _ => simp [hd]
  | next hd _ _ => simp [hd]

/-- Everything that has been resolved leads there. -/
def Sound (graph : AliasGraph) (resolved : Names) : Prop :=
  ∀ name owner, resolved.lookup name = some owner → ∃ steps, Leads graph steps name owner

theorem sound_nil : Sound graph [] := fun _ _ hf => by cases hf

theorem Sound.cons (hs : Sound graph resolved) (hl : Leads graph steps name owner) :
    Sound graph ((name, owner) :: resolved) := by
  intro other value hf
  by_cases he : other = name
  · subst he
    obtain rfl : owner = value := by simpa using hf
    exact ⟨steps, hl⟩
  · rw [lookup_cons, beq_false_of_ne he] at hf
    exact hs other value hf

theorem resolve_sound {result : String × Names} (hs : Sound graph resolved)
    (hr : resolve graph resolved visiting name = .ok result) :
    Sound graph result.2 ∧ result.2.lookup name = some result.1 ∧ resolved <:+ result.2 := by
  fun_induction resolve graph resolved visiting name generalizing result with
  | case1 visiting name owner hf =>
    cases hr
    exact ⟨hs, hf, suffix_rfl⟩
  | case4 visiting name hf hv destination hd ho =>
    cases hr
    exact ⟨hs.cons (.output hd ho), by simp, suffix_cons _ _⟩
  | case5 visiting name hf hv destination hd ho hm ih =>
    obtain ⟨⟨owner, after⟩, hi, hr⟩ := bind_eq_ok.mp hr
    obtain ⟨ha, hn, hg⟩ := ih hi
    obtain ⟨steps, hl⟩ := ha destination owner hn
    cases hr
    exact ⟨ha.cons (.next hd ho hl), by simp, hg.trans (suffix_cons _ _)⟩
  | _ => cases hr

theorem resolve_fresh {destination : String} (hf : resolved.lookup name = none)
    (hn : name ∉ visiting) (hd : graph.declarations.lookup name = some destination) :
    resolve graph resolved visiting name =
      if destination ∈ graph.outputs then .ok (destination, (name, destination) :: resolved)
      else if (graph.declarations.lookup destination).isSome then do
        let (owner, resolved) ← resolve graph resolved (name :: visiting) destination
        return (owner, (name, owner) :: resolved)
      else .error (.invalidAliasDestination name destination) := by
  rw [resolve, hf]
  simp only [if_neg hn]
  split
  · rename_i he
    exact absurd (he.symm.trans hd) (by simp)
  · rename_i other he
    obtain rfl : other = destination := Option.some.inj (he.symm.trans hd)
    rfl

/-- An alias that leads to an output is not met again on the way. -/
theorem Leads.fresh (hl : Leads graph steps name owner) (hs : Sound graph resolved)
    (hv : ∀ other ∈ visiting, ∃ more > steps, ∃ value, Leads graph more other value) :
    resolved.lookup name = some owner ∨ resolved.lookup name = none ∧ name ∉ visiting := by
  cases hf : resolved.lookup name with
  | some found =>
    obtain ⟨_, ho⟩ := hs name found hf
    exact .inl (congrArg some (hl.unique ho).2.symm)
  | none =>
    refine .inr ⟨rfl, fun hm => ?_⟩
    obtain ⟨more, hb, value, ho⟩ := hv name hm
    exact hb.ne (hl.unique ho).1

theorem Leads.resolve (hl : Leads graph steps name owner) (hs : Sound graph resolved)
    (hv : ∀ other ∈ visiting, ∃ more > steps, ∃ value, Leads graph more other value) :
    ∃ after, resolve graph resolved visiting name = .ok (owner, after) := by
  induction hl generalizing visiting with
  | output hd ho =>
    rcases (Leads.output hd ho).fresh hs hv with hf | ⟨hf, hn⟩
    · exact ⟨resolved, by rw [Checkpoint.resolve, hf]⟩
    · rw [resolve_fresh hf hn hd, if_pos ho]
      exact ⟨_, rfl⟩
  | @next steps name destination owner hd ho hl ih =>
    rcases (Leads.next hd ho hl).fresh hs hv with hf | ⟨hf, hn⟩
    · exact ⟨resolved, by rw [Checkpoint.resolve, hf]⟩
    · have hw : ∀ other ∈ name :: visiting,
          ∃ more > steps, ∃ value, Leads graph more other value := by
        refine forall_mem_cons.mpr ⟨⟨_, Nat.lt_succ_self _, owner, .next hd ho hl⟩, ?_⟩
        intro other hm
        obtain ⟨more, hb, rest⟩ := hv other hm
        exact ⟨more, Nat.lt_of_succ_lt hb, rest⟩
      obtain ⟨after, hr⟩ := ih hw
      rw [resolve_fresh hf hn hd, if_neg ho, if_pos hl.declared, hr]
      exact ⟨_, rfl⟩

theorem lookup_isSome_of_suffix {before after : Names} (hs : before <:+ after)
    (hf : (before.lookup name).isSome) : (after.lookup name).isSome := by
  obtain ⟨more, rfl⟩ := hs
  rw [lookup_append]
  simp [hf]

def RecipeAlias.entry (declaration : RecipeAlias) : String × String :=
  (declaration.name, declaration.destination)

/-- What the first loop asks of each declaration. -/
def RecipeAlias.Admissible (outputs : List String) (declaration : RecipeAlias) : Prop :=
  ¬blank declaration.name ∧ ¬blank declaration.destination ∧ declaration.name ∉ outputs

theorem declareAlias_eq_ok {declaration : RecipeAlias} {next : Names} :
    declareAlias outputs declarations declaration = .ok next ↔
      declaration.Admissible outputs ∧ declaration.name ∉ declarations.map Prod.fst ∧
        declarations ++ [declaration.entry] = next := by
  simp [declareAlias, bind_eq_ok, reject_eq_ok, RecipeAlias.Admissible, RecipeAlias.entry, pure,
    Except.pure, and_assoc]

variable {aliases : List RecipeAlias}

theorem foldlM_declareAlias {declarations result : Names} (hn : (declarations.map Prod.fst).Nodup) :
    aliases.foldlM (declareAlias outputs) declarations = .ok result ↔
      (∀ declaration ∈ aliases, declaration.Admissible outputs) ∧
        (declarations.map Prod.fst ++ aliases.map (·.name)).Nodup ∧
        declarations ++ aliases.map RecipeAlias.entry = result := by
  induction aliases generalizing declarations with
  | nil => simp [pure, Except.pure, hn]
  | cons declaration aliases ih =>
    rw [foldlM_cons, bind_eq_ok]
    simp only [declareAlias_eq_ok]
    have hp : ((declarations ++ [declaration.entry]).map Prod.fst).Nodup ↔
        declaration.name ∉ declarations.map Prod.fst := by
      rw [map_append, map_singleton, ← concat_eq_append, nodup_concat]
      exact and_iff_left hn
    constructor
    · rintro ⟨next, ⟨ha, hf, rfl⟩, hr⟩
      obtain ⟨ho, hd, he⟩ := (ih (hp.mpr hf)).mp hr
      exact ⟨forall_mem_cons.mpr ⟨ha, ho⟩, by simpa [RecipeAlias.entry] using hd, by simpa using he⟩
    · rintro ⟨ho, hd, he⟩
      obtain ⟨ha, ho⟩ := forall_mem_cons.mp ho
      have hd : ((declarations ++ [declaration.entry]).map Prod.fst ++
        aliases.map (·.name)).Nodup := by simpa [RecipeAlias.entry] using hd
      exact ⟨_, ⟨ha, hp.mp hd.of_append_left, rfl⟩,
        (ih hd.of_append_left).mpr ⟨ho, hd, by simpa using he⟩⟩

theorem foldlM_resolve {names : List String} (hs : Sound graph resolved)
    {result : Names} (hr : names.foldlM (resolveRoot graph) resolved = .ok result) :
    Sound graph result ∧ resolved <:+ result ∧ ∀ name ∈ names, (result.lookup name).isSome := by
  induction names generalizing resolved with
  | nil =>
    cases hr
    exact ⟨hs, suffix_rfl, by simp⟩
  | cons name names ih =>
    rw [foldlM_cons, bind_eq_ok] at hr
    obtain ⟨middle, hm, hr⟩ := hr
    obtain ⟨⟨owner, next⟩, hf, hm⟩ := bind_eq_ok.mp hm
    cases hm
    obtain ⟨hn, hl, hx⟩ := resolve_sound hs hf
    obtain ⟨ha, hy, ho⟩ := ih hn hr
    refine ⟨ha, hx.trans hy, forall_mem_cons.mpr ⟨?_, ho⟩⟩
    exact lookup_isSome_of_suffix hy (by simp [hl])

theorem exists_foldlM_resolve {names : List String} (hs : Sound graph resolved)
    (hl : ∀ name ∈ names, ∃ steps owner, Leads graph steps name owner) :
    ∃ result, names.foldlM (resolveRoot graph) resolved = .ok result := by
  induction names generalizing resolved with
  | nil => exact ⟨resolved, rfl⟩
  | cons name names ih =>
    obtain ⟨⟨steps, owner, hf⟩, hl⟩ := forall_mem_cons.mp hl
    obtain ⟨next, hr⟩ := hf.resolve hs (forall_mem_nil _)
    obtain ⟨result, hw⟩ := ih (resolve_sound hs hr).1 hl
    exact ⟨result, by rw [foldlM_cons, resolveRoot, hr]; exact hw⟩

def graphOf (outputs : List String) (aliases : List RecipeAlias) : AliasGraph :=
  ⟨outputs, aliases.map RecipeAlias.entry⟩

theorem mem_sortedNames :
    name ∈ ((aliases.map RecipeAlias.entry).map Prod.fst).insertionSort (· ≤ ·) ↔
      name ∈ aliases.map (·.name) := by
  rw [mem_insertionSort, map_map]
  rfl

theorem published_sound {published : Names}
    (hv : validateRecipeAliases outputs aliases = .ok published) :
    (∀ declaration ∈ aliases, declaration.Admissible outputs) ∧ (aliases.map (·.name)).Nodup ∧
      Sound (graphOf outputs aliases) published ∧
      ∀ name ∈ aliases.map (·.name), (published.lookup name).isSome := by
  obtain ⟨declarations, hd, hv⟩ := bind_eq_ok.mp hv
  obtain ⟨ha, hn, rfl⟩ := (@foldlM_declareAlias outputs aliases [] _ nodup_nil).mp hd
  obtain ⟨hs, _, hl⟩ := foldlM_resolve sound_nil hv
  exact ⟨ha, hn, hs, fun name hm => hl name (mem_sortedNames.mpr hm)⟩

theorem aliases_published (outputs : List String) (aliases : List RecipeAlias) :
    ((∃ published, validateRecipeAliases outputs aliases = .ok published) ↔
        (∀ declaration ∈ aliases, declaration.Admissible outputs) ∧ (aliases.map (·.name)).Nodup ∧
          ∀ declaration ∈ aliases, ∃ steps owner,
            Leads (graphOf outputs aliases) steps declaration.name owner) ∧
      ∀ published, validateRecipeAliases outputs aliases = .ok published → ∀ name,
        ((published.lookup name).isSome ↔ name ∈ aliases.map (·.name)) ∧
        ∀ owner, published.lookup name = some owner →
          ∃ steps, Leads (graphOf outputs aliases) steps name owner := by
  refine ⟨⟨?_, ?_⟩, ?_⟩
  · rintro ⟨published, hv⟩
    obtain ⟨ha, hn, hs, hl⟩ := published_sound hv
    refine ⟨ha, hn, fun declaration hm => ?_⟩
    obtain ⟨owner, hf⟩ := Option.isSome_iff_exists.mp (hl _ (mem_map_of_mem hm))
    obtain ⟨steps, hl⟩ := hs _ owner hf
    exact ⟨steps, owner, hl⟩
  · rintro ⟨ha, hn, hl⟩
    have hd := (@foldlM_declareAlias outputs aliases [] _ nodup_nil).mpr ⟨ha, hn, rfl⟩
    have hr : ∀ name ∈ ((aliases.map RecipeAlias.entry).map Prod.fst).insertionSort (· ≤ ·),
        ∃ steps owner, Leads (graphOf outputs aliases) steps name owner := by
      intro name hm
      obtain ⟨declaration, hx, rfl⟩ := mem_map.mp (mem_sortedNames.mp hm)
      exact hl declaration hx
    obtain ⟨published, hp⟩ := exists_foldlM_resolve sound_nil hr
    exact ⟨published, bind_eq_ok.mpr ⟨_, hd, hp⟩⟩
  · intro published hv name
    obtain ⟨_, _, hs, hl⟩ := published_sound hv
    refine ⟨⟨fun hf => ?_, hl name⟩, hs name⟩
    obtain ⟨owner, hf⟩ := Option.isSome_iff_exists.mp hf
    obtain ⟨_, hl⟩ := hs name owner hf
    obtain ⟨destination, hd⟩ := Option.isSome_iff_exists.mp hl.declared
    obtain ⟨before, after, he, _⟩ := lookup_eq_some_iff.mp hd
    have hm : (name, destination) ∈ (graphOf outputs aliases).declarations := by
      rw [he]
      simp
    obtain ⟨declaration, hm, he⟩ := mem_map.mp hm
    exact mem_map.mpr ⟨declaration, hm, congrArg Prod.fst he⟩

/-- A blank output cannot be the destination of an alias. -/
theorem blank_output_unreachable :
    validateRecipeAliases [" "] [⟨"a", " "⟩] = .error (.invalidAliasDestination "a" " ") ∧
      ¬blank "a" ∧ "a" ∉ [" "] ∧ Leads (graphOf [" "] [⟨"a", " "⟩]) 0 "a" " " :=
  ⟨by decide +kernel, by decide +kernel, by decide, .output rfl (by decide)⟩

end Eredu.Checkpoint
