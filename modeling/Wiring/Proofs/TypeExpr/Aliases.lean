import Mathlib.Data.Finset.Card
import Mathlib.Data.Finset.SDiff
import Mathlib.Logic.Function.Iterate
import Mathlib.Logic.Relation
import Wiring.Proofs.TypeExpr.Mentions

/-!
# Aliases

A bare name that an alias has is lowered as the definition of the alias.  Following such names from
an expression either comes to an alias that depends on itself or to one with arguments, and then the
expression cannot be lowered, or it comes to an end, and then the expression is lowered like the one
that is left when every alias has been replaced by its definition.
-/

namespace Wiring

/-- The error for a name that cannot be lowered. -/
def Mention.problem : Mention → Error
  | .bare name => .manifest (.cyclicAlias name)
  | .applied name => .manifest (.aliasWithArguments name)

namespace Scope

open Lowering

variable {scope : Scope} {name : String} {target expr : TypeExpr} {rounds : ℕ}
  {expanding : List String}

/-- What a bare name is an alias for.  No alias takes a reserved name. -/
def definition? (scope : Scope) (name : String) : Option TypeExpr :=
  if (reserved? name).isSome then none else scope.alias? name

/-- A bare name leads to the names in its definition. -/
def Follows (scope : Scope) (mention next : Mention) : Prop :=
  ∃ name target, mention = .bare name ∧ scope.definition? name = some target ∧
    next ∈ target.mentions

/-- The name is come to from the expression by following bare names through definitions. -/
def Reaches (scope : Scope) (expr : TypeExpr) (mention : Mention) : Prop :=
  ∃ first ∈ expr.mentions, Relation.ReflTransGen scope.Follows first mention

/-- The name is an alias that depends on itself, or one that is written with arguments. -/
def IsFaulty (scope : Scope) : Mention → Prop
  | .bare name => Relation.TransGen scope.Follows (.bare name) (.bare name)
  | .applied name => (scope.alias? name).isSome = true

/-- The name is that of an alias. -/
def IsAlias (scope : Scope) : Mention → Prop
  | .bare name => (scope.definition? name).isSome = true
  | .applied name => (scope.alias? name).isSome = true

/-- What a name that is no alias is lowered to. -/
def plain (scope : Scope) (name : String) : Lowering TypeId :=
  intern ((reserved? name).getD
    (if name ∈ scope.enumerations then .enumeration name else .nominal name))

theorem lowerName_of_plain (h : scope.definition? name = none) :
    scope.lowerName rounds expanding name = scope.plain name := by
  rw [lowerName, plain]
  cases hreserved : reserved? name with
  | some descriptor => rfl
  | none =>
      rw [definition?, hreserved] at h
      have halias : scope.alias? name = none := h
      simp only [halias, Option.getD_none]
      split_ifs <;> rfl

theorem lowerName_of_definition (h : scope.definition? name = some target) :
    scope.lowerName rounds expanding name =
      if name ∈ expanding ∨ rounds = 0 then throw (.manifest (.cyclicAlias name))
      else scope.lowerWith (scope.lowerName (rounds - 1) (name :: expanding)) target := by
  rw [definition?] at h
  split_ifs at h with hreserved
  rw [lowerName, Option.not_isSome_iff_eq_none.mp hreserved]
  simp only [h]
  cases rounds <;> simp

/-- How a bare name is lowered below the aliases that are being expanded, with no bound on the
number of expansions: a name whose expansion did not come to an end would not be lowered at all. -/
inductive Lowers (scope : Scope) : List String → String → Lowering TypeId → Prop where
  | plain {expanding : List String} {name : String} (unaliased : scope.definition? name = none) :
      Lowers scope expanding name (scope.plain name)
  | again {expanding : List String} {name : String}
      (aliased : (scope.definition? name).isSome = true) (opened : name ∈ expanding) :
      Lowers scope expanding name (throw (.manifest (.cyclicAlias name)))
  | expand {expanding : List String} {name : String} {target : TypeExpr}
      {bare : String → Lowering TypeId} (aliased : scope.definition? name = some target)
      (fresh : name ∉ expanding)
      (inner : ∀ other, .bare other ∈ target.mentions →
        Lowers scope (name :: expanding) other (bare other)) :
      Lowers scope expanding name (scope.lowerWith bare target)

/-- The names of aliases that are not being expanded. -/
def unopened (scope : Scope) (expanding : List String) : Finset String :=
  (scope.aliases.map Prod.fst).toFinset \ expanding.toFinset

theorem mem_unopened (h : scope.definition? name = some target) :
    name ∈ scope.unopened expanding ↔ name ∉ expanding := by
  rw [definition?] at h
  split_ifs at h
  obtain ⟨before, after, haliases, -⟩ := List.lookup_eq_some_iff.mp h
  have hdeclared : name ∈ scope.aliases.map Prod.fst := by
    rw [haliases]
    simp
  rw [unopened, Finset.mem_sdiff, List.mem_toFinset, List.mem_toFinset]
  exact and_iff_right hdeclared

theorem card_unopened_lt (h : scope.definition? name = some target) (hfresh : name ∉ expanding) :
    (scope.unopened (name :: expanding)).card < (scope.unopened expanding).card := by
  refine Finset.card_lt_card (Finset.ssubset_iff_of_subset ?_ |>.mpr ⟨name, ?_, ?_⟩)
  · refine Finset.sdiff_subset_sdiff (Finset.Subset.refl _) fun other hother ↦ ?_
    exact List.mem_toFinset.mpr (List.mem_cons_of_mem _ (List.mem_toFinset.mp hother))
  · exact (mem_unopened h).mpr hfresh
  · exact fun hmem ↦ (mem_unopened h).mp hmem List.mem_cons_self

theorem card_unopened_le (expanding : List String) :
    (scope.unopened expanding).card ≤ scope.aliases.length := by
  have hnames : (scope.unopened expanding).card ≤ (scope.aliases.map Prod.fst).toFinset.card :=
    Finset.card_le_card Finset.sdiff_subset
  have hlength := List.toFinset_card_le (scope.aliases.map Prod.fst)
  rw [List.length_map] at hlength
  exact hnames.trans hlength

theorem lowers_lowerName (h : (scope.unopened expanding).card ≤ rounds) (name : String) :
    scope.Lowers expanding name (scope.lowerName rounds expanding name) := by
  induction rounds generalizing expanding name with
  | zero =>
      cases hname : scope.definition? name with
      | none => exact lowerName_of_plain hname ▸ .plain hname
      | some target =>
          rw [lowerName_of_definition hname, if_pos (.inr rfl)]
          refine .again (Option.isSome_of_eq_some hname) (by_contra fun hfresh ↦ ?_)
          have hlt := card_unopened_lt hname hfresh
          omega
  | succ rounds ih =>
      cases hname : scope.definition? name with
      | none => exact lowerName_of_plain hname ▸ .plain hname
      | some target =>
          rw [lowerName_of_definition hname]
          by_cases hopened : name ∈ expanding
          · rw [if_pos (.inl hopened)]
            exact .again (Option.isSome_of_eq_some hname) hopened
          · rw [if_neg (by simp [hopened])]
            have hlt := card_unopened_lt hname hopened
            exact .expand hname hopened fun other _ ↦ ih (by omega) other

/-- As many rounds as there are aliases are enough. -/
theorem lowers_of_scope (scope : Scope) (name : String) :
    scope.Lowers [] name (scope.lowerName scope.aliases.length [] name) :=
  lowers_lowerName (card_unopened_le []) name

namespace Lowers

variable {L M : Lowering TypeId}

/-- A name is lowered in one way only. -/
theorem unique (h : scope.Lowers expanding name L) (hother : scope.Lowers expanding name M) :
    L = M := by
  induction h generalizing M with
  | plain unaliased =>
      cases hother with
      | plain => rfl
      | again aliased => simp [unaliased] at aliased
      | expand aliased => simp [unaliased] at aliased
  | again aliased opened =>
      cases hother with
      | plain unaliased => simp [unaliased] at aliased
      | again => rfl
      | expand _ fresh => exact absurd opened fresh
  | @expand expanding name target bare aliased fresh inner ih =>
      cases hother with
      | plain unaliased => simp [unaliased] at aliased
      | again _ opened => exact absurd opened fresh
      | @expand _ _ target' meaning aliased' _ inner' =>
          obtain rfl : target = target' := Option.some.inj (aliased.symm.trans aliased')
          refine lowerWith_congr target fun mention hmention ↦ ?_
          cases mention with
          | bare other => exact ih other hmention (inner' other hmention)
          | applied other => rfl

/-- What is lowered well below some aliases is lowered in the same way below fewer of them. -/
theorem of_subset (h : scope.Lowers expanding name L) (hsucceeds : L.Succeeds)
    {fewer : List String} (hsub : fewer ⊆ expanding) : scope.Lowers fewer name L := by
  induction h generalizing fewer with
  | plain unaliased => exact .plain unaliased
  | again =>
      obtain ⟨table, id, later, hrun⟩ := hsucceeds
      cases hrun
  | expand aliased fresh _ ih =>
      refine .expand aliased (fun hmem ↦ fresh (hsub hmem)) fun other hother ↦ ?_
      exact ih other hother (allows_of_succeeds hsucceeds (.bare other) hother)
        (List.cons_subset_cons _ hsub)

theorem lowerName_eq (h : scope.Lowers expanding name L) (hsucceeds : L.Succeeds) :
    scope.lowerName scope.aliases.length [] name = L :=
  (lowers_of_scope scope name).unique
    (h.of_subset hsucceeds (List.nil_subset expanding))

/-- A name that is lowered well is no alias that is being expanded, and the names in its definition
are lowered well below it. -/
theorem exists_inner (h : scope.Lowers expanding name L) (hsucceeds : L.Succeeds)
    (haliased : scope.definition? name = some target) :
    name ∉ expanding ∧ ∃ bare, L = scope.lowerWith bare target ∧
      ∀ mention ∈ target.mentions, scope.Allows bare mention ∧
        ∀ other, mention = .bare other → scope.Lowers (name :: expanding) other (bare other) := by
  cases h with
  | plain unaliased => simp [unaliased] at haliased
  | again =>
      obtain ⟨table, id, later, hrun⟩ := hsucceeds
      cases hrun
  | @expand _ _ target' bare aliased fresh inner =>
      obtain rfl : target = target' := Option.some.inj (haliased.symm.trans aliased)
      refine ⟨fresh, bare, rfl, fun mention hmention ↦ ?_⟩
      refine ⟨allows_of_succeeds hsucceeds mention hmention, ?_⟩
      rintro other rfl
      exact inner other hmention

/-- A name that is not lowered leads to a faulty name or back to an alias that is being expanded. -/
theorem exists_faulty (h : scope.Lowers expanding name L) {error : Error}
    (hfails : L.FailsWith error) :
    ∃ mention, Relation.ReflTransGen scope.Follows (.bare name) mention ∧
      error = mention.problem ∧
      (scope.IsFaulty mention ∨ ∃ opened ∈ expanding, mention = .bare opened) := by
  induction h with
  | plain =>
      obtain ⟨table, later, hrun⟩ := hfails
      cases hrun
  | @again expanding name aliased opened =>
      obtain ⟨table, later, hrun⟩ := hfails
      obtain rfl := Except.error.inj (Prod.mk.inj hrun).1
      exact ⟨.bare name, .refl, rfl, .inr ⟨name, opened, rfl⟩⟩
  | @expand expanding name target bare aliased fresh inner ih =>
      obtain ⟨mention, hmention, hblames⟩ := exists_blamed hfails
      have hstep : scope.Follows (.bare name) mention := ⟨name, target, rfl, aliased, hmention⟩
      cases mention with
      | applied other =>
          exact ⟨.applied other, .single hstep, hblames.2, .inl hblames.1⟩
      | bare other =>
          obtain ⟨reached, hreached, hproblem, hfaulty | ⟨opened, hopened, rfl⟩⟩ :=
            ih other hmention hblames
          · exact ⟨reached, .head hstep hreached, hproblem, .inl hfaulty⟩
          · rcases List.mem_cons.mp hopened with rfl | houter
            · exact ⟨.bare opened, .refl, hproblem, .inl (.head' hstep hreached)⟩
            · exact ⟨.bare opened, .head hstep hreached, hproblem, .inr ⟨opened, houter, rfl⟩⟩

end Lowers

/-- The name can be lowered below the aliases that are being expanded. -/
def LoweredWell (scope : Scope) (expanding : List String) : Mention → Prop
  | .bare name => ∃ L, scope.Lowers expanding name L ∧ L.Succeeds
  | .applied name => scope.alias? name = none

section

variable {mention next : Mention} {fewer : List String}

theorem LoweredWell.of_subset (h : scope.LoweredWell expanding mention)
    (hsub : fewer ⊆ expanding) : scope.LoweredWell fewer mention := by
  cases mention with
  | bare name =>
      obtain ⟨L, hlowers, hsucceeds⟩ := h
      exact ⟨L, hlowers.of_subset hsucceeds hsub, hsucceeds⟩
  | applied name => exact h

theorem LoweredWell.below (h : scope.LoweredWell expanding (.bare name))
    (hname : scope.definition? name = some target) (hnext : next ∈ target.mentions) :
    name ∉ expanding ∧ scope.LoweredWell (name :: expanding) next := by
  obtain ⟨L, hlowers, hsucceeds⟩ := h
  obtain ⟨hfresh, bare, -, hinner⟩ := hlowers.exists_inner hsucceeds hname
  refine ⟨hfresh, ?_⟩
  obtain ⟨hallows, hbelow⟩ := hinner next hnext
  cases next with
  | bare other => exact ⟨bare other, hbelow other rfl, hallows⟩
  | applied other => exact hallows

theorem LoweredWell.reached (h : scope.LoweredWell expanding mention)
    (hreached : Relation.ReflTransGen scope.Follows mention next) :
    ∃ more, expanding ⊆ more ∧ scope.LoweredWell more next := by
  induction hreached with
  | refl => exact ⟨expanding, List.Subset.refl _, h⟩
  | tail _ hfollows ih =>
      obtain ⟨more, hmore, hwell⟩ := ih
      obtain ⟨name, target, rfl, hname, hnext⟩ := hfollows
      exact ⟨name :: more, List.subset_cons_of_subset _ hmore, (hwell.below hname hnext).2⟩

theorem LoweredWell.not_isFaulty (h : scope.LoweredWell expanding mention) :
    ¬scope.IsFaulty mention := by
  cases mention with
  | applied name => exact fun halias ↦ Option.not_isSome_iff_eq_none.mpr h halias
  | bare name =>
      intro hcycle
      obtain ⟨next, hfirst, hback⟩ := Relation.TransGen.head'_iff.mp hcycle
      obtain ⟨_, target, ⟨⟩, hname, hnext⟩ := hfirst
      -- The way back ends below the name itself, where it is no longer fresh.
      obtain ⟨more, hmore, hagain⟩ := (h.below hname hnext).2.reached hback
      exact (hagain.below hname hnext).1 (hmore List.mem_cons_self)

end

/-! ## Replacing aliases by their definitions -/

/-- The expression with every alias replaced by its definition, as often as there are aliases. -/
def expanded (scope : Scope) (expr : TypeExpr) : TypeExpr :=
  (TypeExpr.replace scope.definition?)^[scope.aliases.length] expr

theorem mem_mentions_replace {next : Mention}
    (h : next ∈ (expr.replace scope.definition?).mentions) :
    (next ∈ expr.mentions ∧ ∀ name, next = .bare name → scope.definition? name = none) ∨
      ∃ name target, .bare name ∈ expr.mentions ∧ scope.definition? name = some target ∧
        next ∈ target.mentions := by
  rw [TypeExpr.mentions_replace] at h
  obtain ⟨mention, hmention, hnext⟩ := List.mem_flatMap.mp h
  cases mention with
  | applied name =>
      obtain rfl := List.mem_singleton.mp hnext
      exact .inl ⟨hmention, nofun⟩
  | bare name =>
      rw [Mention.replaced] at hnext
      cases hname : scope.definition? name with
      | none =>
          rw [hname] at hnext
          obtain rfl := List.mem_singleton.mp hnext
          refine .inl ⟨hmention, ?_⟩
          rintro _ ⟨⟩
          exact hname
      | some target =>
          rw [hname] at hnext
          exact .inr ⟨name, target, hmention, hname, hnext⟩

theorem lower_replace (h : ∀ mention ∈ expr.mentions, scope.LoweredWell [] mention) :
    scope.lower (expr.replace scope.definition?) = scope.lower expr := by
  rw [lower, lower, lowerWith_replace]
  refine lowerWith_congr expr fun mention hmention ↦ ?_
  cases mention with
  | applied name => rfl
  | bare name =>
      obtain ⟨L, hlowers, hsucceeds⟩ := h (.bare name) hmention
      cases hname : scope.definition? name with
      | none => simp [LoweredAlike, meaningInstead, hname]
      | some target =>
          obtain ⟨-, bare, rfl, hinner⟩ := hlowers.exists_inner hsucceeds hname
          have hmeaning : scope.lowerName scope.aliases.length [] name =
              scope.lowerWith bare target := hlowers.lowerName_eq hsucceeds
          rw [LoweredAlike, meaningInstead, hname, hmeaning]
          refine lowerWith_congr target fun next hnext ↦ ?_
          obtain ⟨hallows, hbelow⟩ := hinner next hnext
          cases next with
          | applied other => rfl
          | bare other => exact (hbelow other rfl).lowerName_eq hallows

/-- After that many rounds the aliases which the name may still lead to, if it is one itself, are no
more than the rounds that are left. -/
def WithinRounds (scope : Scope) (rounds : ℕ) (mention : Mention) : Prop :=
  ∃ expanding, scope.LoweredWell expanding mention ∧
    (scope.IsAlias mention → (scope.unopened expanding).card + rounds ≤ scope.aliases.length)

theorem withinRounds_replace (h : ∀ mention ∈ expr.mentions, scope.WithinRounds rounds mention) :
    ∀ mention ∈ (expr.replace scope.definition?).mentions,
      scope.WithinRounds (rounds + 1) mention := by
  intro next hnext
  rcases mem_mentions_replace hnext with ⟨hmention, hplain⟩ | ⟨name, target, hmention, hname, hmem⟩
  · obtain ⟨expanding, hwell, -⟩ := h next hmention
    refine ⟨expanding, hwell, fun halias ↦ ?_⟩
    cases next with
    | bare name => simp [IsAlias, hplain name rfl] at halias
    | applied name => exact absurd halias hwell.not_isFaulty
  · obtain ⟨expanding, hwell, hrounds⟩ := h (.bare name) hmention
    obtain ⟨hfresh, hbelow⟩ := hwell.below hname hmem
    refine ⟨name :: expanding, hbelow, fun _ ↦ ?_⟩
    have hlt := card_unopened_lt hname hfresh
    have hle := hrounds (Option.isSome_of_eq_some hname)
    omega

theorem WithinRounds.loweredWell {mention : Mention} (h : scope.WithinRounds rounds mention) :
    scope.LoweredWell [] mention := by
  obtain ⟨expanding, hwell, -⟩ := h
  exact hwell.of_subset (List.nil_subset expanding)

/-- What a round leaves has the same meaning and is a round nearer to the end. -/
theorem expand_rounds (h : ∀ mention ∈ expr.mentions, scope.LoweredWell [] mention)
    (rounds : ℕ) :
    scope.lower ((TypeExpr.replace scope.definition?)^[rounds] expr) = scope.lower expr ∧
      ∀ mention ∈ ((TypeExpr.replace scope.definition?)^[rounds] expr).mentions,
        scope.WithinRounds rounds mention := by
  induction rounds with
  | zero =>
      refine ⟨rfl, fun mention hmention ↦ ?_⟩
      exact ⟨[], h mention hmention, fun _ ↦ card_unopened_le []⟩
  | succ rounds ih =>
      obtain ⟨hlower, hwithin⟩ := ih
      rw [Function.iterate_succ_apply']
      refine ⟨?_, withinRounds_replace hwithin⟩
      rw [lower_replace fun mention hmention ↦ (hwithin mention hmention).loweredWell, hlower]

theorem WithinRounds.not_isAlias {mention : Mention}
    (h : scope.WithinRounds scope.aliases.length mention) : ¬scope.IsAlias mention := by
  intro halias
  obtain ⟨expanding, hwell, hrounds⟩ := h
  cases mention with
  | applied name => exact hwell.not_isFaulty halias
  | bare name =>
      obtain ⟨target, hname⟩ := Option.isSome_iff_exists.mp halias
      have hcard : (scope.unopened expanding).card = 0 := by
        have hle := hrounds halias
        omega
      obtain ⟨L, hlowers, hsucceeds⟩ := hwell
      have hmem := (mem_unopened hname).mpr (hlowers.exists_inner hsucceeds hname).1
      rw [Finset.card_eq_zero.mp hcard] at hmem
      exact Finset.notMem_empty name hmem

theorem lower_withoutAliases (h : ∀ mention ∈ expr.mentions, ¬scope.IsAlias mention) :
    ({ scope with aliases := [] } : Scope).lower expr = scope.lower expr := by
  refine lowerWith_congr expr fun mention hmention ↦ ?_
  cases mention with
  | applied name =>
      exact (Option.isSome_eq_false_iff.mpr
        (Option.isNone_iff_eq_none.mpr (Option.not_isSome_iff_eq_none.mp (h _ hmention)))).symm
  | bare name =>
      have hname := Option.not_isSome_iff_eq_none.mp (h _ hmention)
      rw [LoweredAlike, lowerName_of_plain hname]
      refine lowerName_of_plain ?_
      rw [definition?]
      split_ifs <;> rfl

theorem exists_reached_faulty {error : Error} (h : (scope.lower expr).FailsWith error) :
    ∃ mention, scope.Reaches expr mention ∧ scope.IsFaulty mention ∧ error = mention.problem := by
  obtain ⟨first, hfirst, hblames⟩ := exists_blamed h
  cases first with
  | applied name => exact ⟨.applied name, ⟨_, hfirst, .refl⟩, hblames.1, hblames.2⟩
  | bare name =>
      have hlowers := lowers_of_scope scope name
      obtain ⟨mention, hreached, hproblem, hfaulty | ⟨_, hopened, -⟩⟩ :=
        hlowers.exists_faulty hblames
      · exact ⟨mention, ⟨_, hfirst, hreached⟩, hfaulty, hproblem⟩
      · cases hopened

theorem loweredWell_of_succeeds (h : (scope.lower expr).Succeeds) :
    ∀ mention ∈ expr.mentions, scope.LoweredWell [] mention := by
  intro mention hmention
  have hallows := allows_of_succeeds h mention hmention
  cases mention with
  | applied name => exact hallows
  | bare name => exact ⟨_, lowers_of_scope scope name, hallows⟩

theorem succeeds_of_not_fails {table : TypeTable}
    (h : ¬∃ error later, (scope.lower expr).run table = (.error error, later)) :
    (scope.lower expr).Succeeds := by
  cases hrun : (scope.lower expr).run table with
  | mk result later =>
      cases result with
      | error error => exact absurd ⟨error, later, hrun⟩ h
      | ok id => exact ⟨table, id, later, hrun⟩

theorem not_isFaulty_of_succeeds (h : (scope.lower expr).Succeeds) {mention : Mention}
    (hreaches : scope.Reaches expr mention) : ¬scope.IsFaulty mention := by
  obtain ⟨first, hfirst, hreached⟩ := hreaches
  obtain ⟨more, -, hwell⟩ := (loweredWell_of_succeeds h first hfirst).reached hreached
  exact hwell.not_isFaulty

/-- An expression fails to be lowered exactly if a faulty name is come to from it, with the error
for such a name.  Otherwise replacing aliases by their definitions comes to an end, and what it
leaves is lowered to the same type with the same table, also where there are no aliases.  Lowering a
name itself has no need of the bound on the expansions. -/
theorem aliases_transparent (scope : Scope) (expr : TypeExpr) (table : TypeTable) :
    (∀ name L, scope.Lowers [] name L ↔ L = scope.lowerName scope.aliases.length [] name) ∧
      ((∃ error later, (scope.lower expr).run table = (.error error, later)) ↔
        ∃ mention, scope.Reaches expr mention ∧ scope.IsFaulty mention) ∧
      (∀ error later, (scope.lower expr).run table = (.error error, later) →
        ∃ mention, scope.Reaches expr mention ∧ scope.IsFaulty mention ∧
          error = mention.problem) ∧
      ((¬∃ mention, scope.Reaches expr mention ∧ scope.IsFaulty mention) →
        (∀ mention ∈ (scope.expanded expr).mentions, ¬scope.IsAlias mention) ∧
          (scope.lower (scope.expanded expr)).run table = (scope.lower expr).run table ∧
          (({ scope with aliases := [] } : Scope).lower (scope.expanded expr)).run table =
            (scope.lower expr).run table) := by
  have hfails : (∃ error later, (scope.lower expr).run table = (.error error, later)) ↔
      ∃ mention, scope.Reaches expr mention ∧ scope.IsFaulty mention := by
    refine ⟨?_, fun hfaulty ↦ by_contra fun hruns ↦ ?_⟩
    · rintro ⟨error, later, hrun⟩
      obtain ⟨mention, hreaches, hfaulty, -⟩ := exists_reached_faulty ⟨table, later, hrun⟩
      exact ⟨mention, hreaches, hfaulty⟩
    · obtain ⟨mention, hreaches, hfaulty⟩ := hfaulty
      exact not_isFaulty_of_succeeds (succeeds_of_not_fails hruns) hreaches hfaulty
  refine ⟨fun name L ↦ ⟨fun h ↦ ?_, ?_⟩, hfails, fun error later hrun ↦ ?_, fun hsound ↦ ?_⟩
  · exact h.unique (lowers_of_scope scope name)
  · rintro rfl
    exact lowers_of_scope scope name
  · exact exists_reached_faulty ⟨table, later, hrun⟩
  · have hsucceeds := succeeds_of_not_fails fun hruns ↦ hsound (hfails.mp hruns)
    obtain ⟨hlower, hwithin⟩ :=
      expand_rounds (loweredWell_of_succeeds hsucceeds) scope.aliases.length
    have hunaliased : ∀ mention ∈ (scope.expanded expr).mentions, ¬scope.IsAlias mention :=
      fun mention hmention ↦ (hwithin mention hmention).not_isAlias
    refine ⟨hunaliased, ?_, ?_⟩
    · rw [expanded, hlower]
    · rw [lower_withoutAliases hunaliased, expanded, hlower]

example : expanded ⟨[("Ids", .array (.named "Id" [])), ("Id", .named "string" [])], []⟩
    (.tuple [.named "Ids" [], .named "Id" []]) =
      .tuple [.array (.named "string" []), .named "string" []] := by
  cbv

end Scope

end Wiring
