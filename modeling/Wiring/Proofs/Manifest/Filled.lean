import Wiring.Manifest.Declare
import Wiring.Proofs.Graph.Built
import Wiring.Proofs.Lists
import Wiring.Proofs.TypeExpr.Interned

/-!
# The content of one module

What is declared of a module, and when.  Includes need the names of modules, requirements and
providers need the types that they are written with, and nothing else can go wrong.
-/

namespace Wiring

namespace Graph

theorem findModule?_eq_some_iff {graph : Graph} {name : String} {id : ModuleId} :
    graph.findModule? name = some id ↔
      name ∈ graph.moduleNames ∧ id = graph.moduleNames.idxOf name := by
  rw [findModule?, moduleNames]
  generalize graph.modules = modules
  induction modules generalizing id with
  | nil => simp
  | cons decl modules ih =>
      rw [List.findIdx?_cons, List.map_cons, List.idxOf_cons, List.mem_cons]
      by_cases hname : decl.name = name
      · simp [hname, eq_comm]
      · have hbeq : (decl.name == name) = false := beq_eq_false_iff_ne.mpr hname
        have hne : ¬name = decl.name := fun heq ↦ hname heq.symm
        simp only [hbeq, Bool.false_eq_true, if_false, Option.map_eq_some_iff, ih, hne, false_or]
        constructor
        · rintro ⟨index, ⟨hmem, rfl⟩, rfl⟩
          exact ⟨hmem, rfl⟩
        · rintro ⟨hmem, rfl⟩
          exact ⟨_, ⟨hmem, rfl⟩, rfl⟩

end Graph

namespace ModuleDecl

/-- The module with further includes, each of them once. -/
def including (ids : List ModuleId) (decl : ModuleDecl) : ModuleDecl :=
  { decl with
    includes := ids.foldl (fun includes id ↦
      if includes.contains id then includes else includes ++ [id]) decl.includes }

def requiring (types : List TypeId) (decl : ModuleDecl) : ModuleDecl :=
  { decl with
    requires := types.foldl (fun requires type ↦ insertAscending type requires) decl.requires }

def providing (ids : List ProviderId) (decl : ModuleDecl) : ModuleDecl :=
  { decl with providers := decl.providers ++ ids }

end ModuleDecl

namespace Manifest

open TypeTable Lowering

variable {scope : Scope} {graph last : Graph}

theorem run_bind_eq_ok {α β : Type} {x : Declaring α} {f : α → Declaring β} {b : β} :
    (x >>= f).run graph = .ok (b, last) ↔
      ∃ a middle, x.run graph = .ok (a, middle) ∧ (f a).run middle = .ok (b, last) := by
  rw [StateT.run_bind]
  exact bind_eq_ok.trans Prod.exists

theorem run_pure_eq_ok {α : Type} {a b : α} :
    (pure a : Declaring α).run graph = .ok (b, last) ↔ a = b ∧ graph = last := by
  change Except.ok (a, graph) = Except.ok (b, last) ↔ a = b ∧ graph = last
  rw [Except.ok.injEq, Prod.mk.injEq]

theorem run_modify_eq_ok {f : Graph → Graph} {u : PUnit} :
    (modify f : Declaring PUnit).run graph = .ok (u, last) ↔ last = f graph := by
  simp [StateT.run_modify, pure, Except.pure, eq_comm]

theorem run_forM_nil_eq_ok {α : Type} {f : α → Declaring PUnit} {u : PUnit} :
    (([] : List α).forM f).run graph = .ok (u, last) ↔ last = graph := by
  exact run_pure_eq_ok.trans (by simp [eq_comm])

theorem run_forM_cons_eq_ok {α : Type} {f : α → Declaring PUnit} {item : α} {items : List α}
    {u : PUnit} : ((item :: items).forM f).run graph = .ok (u, last) ↔
      ∃ middle, (f item).run graph = .ok (u, middle) ∧
        (items.forM f).run middle = .ok (u, last) := by
  refine run_bind_eq_ok.trans ?_
  constructor
  · rintro ⟨⟨⟩, middle, hitem, hitems⟩
    exact ⟨middle, hitem, hitems⟩
  · rintro ⟨middle, hitem, hitems⟩
    exact ⟨⟨⟩, middle, hitem, hitems⟩

theorem run_resolveType_eq_ok {expression : String} {id : TypeId} :
    (resolveType scope expression).run graph = .ok (id, last) ↔
      ∃ types, (scope.resolve expression).run graph.types = (.ok id, types) ∧
        last = { graph with types := types } := by
  rw [StateT.run, resolveType]
  generalize (scope.resolve expression).run graph.types = outcome
  obtain ⟨result, types⟩ := outcome
  cases result with
  | error error =>
      constructor
      · intro h
        cases h
      · rintro ⟨later, heq, -⟩
        cases heq
  | ok found =>
      constructor
      · intro h
        obtain ⟨rfl, rfl⟩ := Prod.mk.inj (Except.ok.inj h)
        exact ⟨types, rfl, rfl⟩
      · rintro ⟨later, heq, rfl⟩
        cases heq
        rfl

theorem run_resolveTypes_eq_ok {expressions : List String} {ids : List TypeId} :
    (resolveTypes scope expressions).run graph = .ok (ids, last) ↔
      ∃ types, Interns graph.types (expressions.map scope.resolve) ids types ∧
        last = { graph with types := types } := by
  induction expressions generalizing graph last ids with
  | nil =>
      rw [resolveTypes, run_pure_eq_ok]
      constructor
      · rintro ⟨rfl, rfl⟩
        exact ⟨graph.types, .nil _, rfl⟩
      · rintro ⟨types, ⟨⟩, rfl⟩
        exact ⟨rfl, rfl⟩
  | cons expression expressions ih =>
      simp only [resolveTypes, run_bind_eq_ok, run_resolveType_eq_ok, ih, run_pure_eq_ok]
      constructor
      · rintro ⟨id, _, ⟨types, head, rfl⟩, ids, _, ⟨later, tail, rfl⟩, rfl, rfl⟩
        exact ⟨later, .cons head tail, rfl⟩
      · rintro ⟨later, @⟨⟩ | ⟨head, tail⟩, rfl⟩
        exact ⟨_, _, ⟨_, head, rfl⟩, _, _, ⟨later, tail, rfl⟩, rfl, rfl⟩

theorem run_lookupModule_eq_ok {name referrer : String} {id : ModuleId} :
    (lookupModule name referrer).run graph = .ok (id, last) ↔
      name ∈ graph.moduleNames ∧ id = graph.moduleNames.idxOf name ∧ last = graph := by
  rw [← and_assoc, ← Graph.findModule?_eq_some_iff, StateT.run, lookupModule]
  cases graph.findModule? name with
  | none => simp
  | some found => simp [eq_comm]

theorem addInclude_eq (graph : Graph) (owner included : ModuleId) :
    graph.addInclude owner included =
      { graph with modules := graph.modules.modify owner (ModuleDecl.including [included]) } := by
  rw [Graph.addInclude]
  congr 2
  funext decl
  rw [ModuleDecl.including, List.foldl_cons, List.foldl_nil]
  split_ifs <;> rfl

theorem run_includes_eq_ok {names : List String} {referrer : String} {owner : ModuleId}
    {u : PUnit} :
    (names.forM fun name ↦ do
        let included ← lookupModule name referrer
        modify fun graph ↦ graph.addInclude owner included : Declaring PUnit).run graph =
          .ok (u, last) ↔
      (∀ name ∈ names, name ∈ graph.moduleNames) ∧
        last = { graph with
          modules := graph.modules.modify owner
            (ModuleDecl.including (names.map graph.moduleNames.idxOf)) } := by
  induction names generalizing graph with
  | nil =>
      have hsame : graph.modules.modify owner (ModuleDecl.including []) = graph.modules :=
        List.modify_id owner graph.modules
      rw [run_forM_nil_eq_ok, List.map_nil, hsame]
      simp
  | cons name names ih =>
      have hnames : (graph.addInclude owner (graph.moduleNames.idxOf name)).moduleNames =
          graph.moduleNames := by
        rw [addInclude_eq]
        exact map_modify (f := ModuleDecl.including [_]) (fun _ ↦ rfl) graph.modules owner
      have hmodify : (graph.addInclude owner (graph.moduleNames.idxOf name)).modules.modify owner
            (ModuleDecl.including (names.map graph.moduleNames.idxOf)) =
          graph.modules.modify owner
            (ModuleDecl.including ((name :: names).map graph.moduleNames.idxOf)) := by
        rw [addInclude_eq]
        exact List.modify_modify_eq _ _ owner graph.modules
      simp only [run_forM_cons_eq_ok, run_bind_eq_ok, run_lookupModule_eq_ok, run_modify_eq_ok, ih,
        List.forall_mem_cons]
      constructor
      · rintro ⟨_, ⟨_, _, ⟨hname, rfl, rfl⟩, rfl⟩, hrest, rfl⟩
        rw [hnames] at hrest ⊢
        rw [hmodify]
        exact ⟨⟨hname, hrest⟩, rfl⟩
      · rintro ⟨⟨hname, hrest⟩, rfl⟩
        refine ⟨_, ⟨_, _, ⟨hname, rfl, rfl⟩, rfl⟩, ?_⟩
        rw [hnames, hmodify]
        exact ⟨hrest, rfl⟩

theorem run_requires_eq_ok {expressions : List String} {owner : ModuleId} {u : PUnit} :
    (expressions.forM fun expression ↦ do
        let type ← resolveType scope expression
        modify fun graph ↦ graph.addRequired owner type : Declaring PUnit).run graph =
          .ok (u, last) ↔
      ∃ ids types, Interns graph.types (expressions.map scope.resolve) ids types ∧
        last = { graph with
          types := types
          modules := graph.modules.modify owner (ModuleDecl.requiring ids) } := by
  induction expressions generalizing graph with
  | nil =>
      have hsame : graph.modules.modify owner (ModuleDecl.requiring []) = graph.modules :=
        List.modify_id owner graph.modules
      rw [run_forM_nil_eq_ok, List.map_nil]
      constructor
      · rintro rfl
        exact ⟨[], _, .nil _, by rw [hsame]⟩
      · rintro ⟨_, _, ⟨⟩, rfl⟩
        rw [hsame]
  | cons expression expressions ih =>
      have hmodify : ∀ id ids, (graph.modules.modify owner fun decl ↦
            { decl with requires := insertAscending id decl.requires }).modify owner
              (ModuleDecl.requiring ids) =
          graph.modules.modify owner (ModuleDecl.requiring (id :: ids)) :=
        fun id ids ↦ List.modify_modify_eq _ _ owner graph.modules
      simp only [run_forM_cons_eq_ok, run_bind_eq_ok, run_resolveType_eq_ok, run_modify_eq_ok, ih,
        List.map_cons]
      constructor
      · rintro ⟨_, ⟨id, _, ⟨later, head, rfl⟩, rfl⟩, ids, types, tail, rfl⟩
        exact ⟨id :: ids, types, .cons head tail, by simp only [Graph.addRequired, hmodify]⟩
      · rintro ⟨_, types, @⟨⟩ | ⟨head, tail⟩, rfl⟩
        exact ⟨_, ⟨_, _, ⟨_, head, rfl⟩, rfl⟩, _, types, tail,
          by simp only [Graph.addRequired, hmodify]⟩

/-- What is lowered for a provider: the types of its parameters and what it delivers. -/
def ProviderEntry.lowerings (scope : Scope) (entry : ProviderEntry) : List (Lowering TypeId) :=
  entry.parameters.map scope.resolve ++ [scope.product entry.returns entry.deferred]

/-- Declared in order from the first table on, the entries give the providers of a module and leave
the second table. -/
inductive Provides (scope : Scope) (owner : ModuleId) :
    TypeTable → List ProviderEntry → List Provider → TypeTable → Prop where
  | nil (table : TypeTable) : Provides scope owner table [] [] table
  | cons {table middle later last : TypeTable} {entry : ProviderEntry} {returns : TypeId}
      {entries : List ProviderEntry} {parameters : List TypeId} {providers : List Provider}
      (arguments : Interns table (entry.parameters.map scope.resolve) parameters middle)
      (product : (scope.product entry.returns entry.deferred).run middle = (.ok returns, later))
      (rest : Provides scope owner later entries providers last) :
      Provides scope owner table (entry :: entries)
        (⟨entry.name, owner, parameters, returns, entry.deferred || later.isPromise returns⟩ ::
          providers) last

theorem run_product_eq_ok {expression : String} {deferred : Bool} {table later : TypeTable}
    {id : TypeId} : (scope.product expression deferred).run table = (.ok id, later) ↔
      ∃ returns middle, (scope.resolve expression).run table = (.ok returns, middle) ∧
        Graph.delivered middle returns deferred = (id, later) := by
  constructor
  · intro h
    generalize hresolve : (scope.resolve expression).run table = outcome
    obtain ⟨result, middle⟩ := outcome
    cases result with
    | error error =>
        rw [Scope.product, run_bind_of_error hresolve] at h
        cases h
    | ok returns =>
        rw [Scope.product, run_bind_of_ok hresolve] at h
        obtain ⟨hid, hlater⟩ := Prod.mk.inj h
        exact ⟨returns, middle, rfl, Prod.ext (Except.ok.inj hid) hlater⟩
  · rintro ⟨returns, middle, hresolve, hdelivered⟩
    rw [Scope.product, run_bind_of_ok hresolve]
    change (Except.ok (Graph.delivered middle returns deferred).1,
      (Graph.delivered middle returns deferred).2) = _
    rw [hdelivered]

/-- A provider is deferred when it says so or when it delivers a promise. -/
theorem isPromise_delivered {types later : TypeTable} {returns product : TypeId} {deferred : Bool}
    (h : Graph.delivered types returns deferred = (product, later)) :
    (deferred || types.isPromise returns) = (deferred || later.isPromise product) := by
  cases deferred with
  | true => rfl
  | false =>
      obtain ⟨rfl, rfl⟩ := Prod.mk.inj h
      rfl

theorem addProvider_eq (graph : Graph) (owner : ModuleId) (name : String)
    (parameters : List TypeId) {returns product : TypeId} {deferred : Bool} {types : TypeTable}
    (h : Graph.delivered graph.types returns deferred = (product, types)) :
    (graph.addProvider owner name parameters returns deferred).2 =
      { graph with
        types := types
        modules := graph.modules.modify owner (ModuleDecl.providing [graph.providers.length])
        providers := graph.providers ++
          [⟨name, owner, parameters, product, deferred || types.isPromise product⟩] } := by
  rw [Graph.addProvider, h, isPromise_delivered h]
  rfl

theorem run_declareProvider_eq_ok {owner : ModuleId} {entry : ProviderEntry} {u : PUnit} :
    (declareProvider scope owner entry).run graph = .ok (u, last) ↔
      ∃ parameters middle returns types,
        Interns graph.types (entry.parameters.map scope.resolve) parameters middle ∧
        (scope.product entry.returns entry.deferred).run middle = (.ok returns, types) ∧
        last = { graph with
          types := types
          modules := graph.modules.modify owner (ModuleDecl.providing [graph.providers.length])
          providers := graph.providers ++
            [⟨entry.name, owner, parameters, returns,
              entry.deferred || types.isPromise returns⟩] } := by
  simp only [declareProvider, run_bind_eq_ok, run_resolveTypes_eq_ok, run_resolveType_eq_ok,
    run_modify_eq_ok, run_product_eq_ok]
  constructor
  · rintro ⟨parameters, _, ⟨middle, harguments, rfl⟩, returns, _, ⟨later, hreturns, rfl⟩, rfl⟩
    exact ⟨parameters, middle, _, _, harguments, ⟨returns, later, hreturns, rfl⟩,
      addProvider_eq _ _ _ _ rfl⟩
  · rintro ⟨parameters, middle, returns, types, harguments, ⟨_, later, hreturns, hdelivered⟩, rfl⟩
    exact ⟨parameters, _, ⟨middle, harguments, rfl⟩, _, _, ⟨later, hreturns, rfl⟩,
      (addProvider_eq { graph with types := later } owner entry.name parameters hdelivered).symm⟩

theorem run_providers_eq_ok {entries : List ProviderEntry} {owner : ModuleId} {u : PUnit} :
    (entries.forM (declareProvider scope owner)).run graph = .ok (u, last) ↔
      ∃ providers types, Provides scope owner graph.types entries providers types ∧
        last = { graph with
          types := types
          modules := graph.modules.modify owner
            (ModuleDecl.providing (List.range' graph.providers.length providers.length))
          providers := graph.providers ++ providers } := by
  induction entries generalizing graph with
  | nil =>
      have hsame : graph.modules.modify owner (ModuleDecl.providing []) = graph.modules := by
        have hid : ModuleDecl.providing [] = id := by
          funext decl
          rw [ModuleDecl.providing, List.append_nil]
          rfl
        rw [hid, List.modify_id]
      rw [run_forM_nil_eq_ok]
      constructor
      · rintro rfl
        exact ⟨[], _, .nil _, by simp [hsame]⟩
      · rintro ⟨_, _, ⟨⟩, rfl⟩
        simp [hsame]
  | cons entry entries ih =>
      have hmodify : ∀ first rest,
          (graph.modules.modify owner (ModuleDecl.providing [first])).modify owner
            (ModuleDecl.providing rest) =
          graph.modules.modify owner (ModuleDecl.providing (first :: rest)) := by
        intro first rest
        rw [List.modify_modify_eq]
        congr 1
        funext decl
        simp [ModuleDecl.providing]
      simp only [run_forM_cons_eq_ok, run_declareProvider_eq_ok, ih]
      constructor
      · rintro ⟨_, ⟨parameters, _, returns, _, harguments, hproduct, rfl⟩, providers, types, hrest,
          rfl⟩
        refine ⟨_ :: providers, types, .cons harguments hproduct hrest, ?_⟩
        simp only [hmodify, List.length_append, List.length_cons, List.length_nil,
          List.range'_succ, List.append_assoc, List.cons_append, List.nil_append, Nat.zero_add]
      · rintro ⟨_, types, @⟨⟩ | ⟨harguments, hproduct, hrest⟩, rfl⟩
        refine ⟨_, ⟨_, _, _, _, harguments, hproduct, rfl⟩, _, types, hrest, ?_⟩
        simp only [hmodify, List.length_append, List.length_cons, List.length_nil,
          List.range'_succ, List.append_assoc, List.cons_append, List.nil_append, Nat.zero_add]

/-! ## The whole module -/

/-- What is lowered for a module, in order. -/
def ModuleEntry.lowerings (scope : Scope) (entry : ModuleEntry) : List (Lowering TypeId) :=
  entry.requires.map scope.resolve ++ entry.providers.flatMap (ProviderEntry.lowerings scope)

theorem run_fillModule_eq_ok {owner : ModuleId} {entry : ModuleEntry} {u : PUnit} :
    (fillModule scope owner entry).run graph = .ok (u, last) ↔
      (∀ name ∈ entry.includes, name ∈ graph.moduleNames) ∧
      ∃ ids middle providers types,
        Interns graph.types (entry.requires.map scope.resolve) ids middle ∧
        Provides scope owner middle entry.providers providers types ∧
        last = { graph with
          types := types
          modules := graph.modules.modify owner fun decl ↦
            ((decl.including (entry.includes.map graph.moduleNames.idxOf)).requiring ids).providing
              (List.range' graph.providers.length providers.length)
          providers := graph.providers ++ providers } := by
  simp only [fillModule, run_bind_eq_ok, run_includes_eq_ok, run_requires_eq_ok,
    run_providers_eq_ok]
  constructor
  · rintro ⟨⟨⟩, _, ⟨hincludes, rfl⟩, ⟨⟩, _, ⟨ids, middle, hrequires, rfl⟩, providers, types,
      hproviders, rfl⟩
    refine ⟨hincludes, ids, middle, providers, types, hrequires, hproviders, ?_⟩
    rw [List.modify_modify_eq, List.modify_modify_eq]
    rfl
  · rintro ⟨hincludes, ids, middle, providers, types, hrequires, hproviders, rfl⟩
    refine ⟨⟨⟩, _, ⟨hincludes, rfl⟩, ⟨⟩, _, ⟨ids, middle, hrequires, rfl⟩, providers, types,
      hproviders, ?_⟩
    rw [List.modify_modify_eq, List.modify_modify_eq]
    rfl

end Manifest

end Wiring
