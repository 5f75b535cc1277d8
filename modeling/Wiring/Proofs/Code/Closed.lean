import Wiring.Code.Placement
import Wiring.Proofs.Code.Emitted
import Wiring.Proofs.Resolution.Instances

/-!
# Closed classes

What a generated class refers to is there: the methods that it calls on itself, the fields that hold
its instances of modules, and the classes that its file imports.
-/

namespace Wiring

namespace Code

namespace Expression

mutual

/-- An expression and all expressions inside it. -/
def walk : Expression → List Expression
  | .this => [.this]
  | .identifier name => [.identifier name]
  | .property object name => .property object name :: walk object
  | .call callee arguments => .call callee arguments :: (walk callee ++ walkAll arguments)
  | .construct className arguments => .construct className arguments :: walkAll arguments
  | .array elements => .array elements :: walkAll elements
  | .await inner => .await inner :: walk inner

def walkAll : List Expression → List Expression
  | [] => []
  | expression :: expressions => walk expression ++ walkAll expressions

end

theorem walkAll_eq_flatMap (expressions : List Expression) :
    walkAll expressions = expressions.flatMap walk := by
  induction expressions with
  | nil => rfl
  | cons expression expressions ih => rw [walkAll, ih, List.flatMap_cons]

end Expression

/-- All expressions in a statement. -/
def Statement.walk : Statement → List Expression
  | .superCall => []
  | .assign target value => target.walk ++ value.walk

/-- Whether a statement assigns to the field of the name. -/
def Statement.assigns (field : String) : Statement → Bool
  | .assign (.property .this name) _ => name == field
  | _ => false

def Class.constructors (c : Class) : List (List Statement) :=
  c.members.filterMap fun
    | .constructor body => some body
    | _ => none

end Code

open Code

namespace Graph

/-- The class has a field for an instance of the module, and its only constructor creates the
instance there, once and after it has called the constructor of the base. -/
structure HoldsInstance (graph : Graph) (c : Code.Class) (owner : ModuleId) : Prop where
  declared : ∃ field ∈ c.fields, field.name = graph.moduleField owner
  assigned : ∃ assignments, c.constructors = [.superCall :: assignments] ∧
    assignments.filter (Statement.assigns (graph.moduleField owner)) =
      [.assign (.thisProperty (graph.moduleField owner))
        (.construct (graph.getModule owner).name [])]

/-- What the class refers to is in the class, or imported by the file. -/
structure ClosedIn (graph : Graph) (file : File) (c : Code.Class) : Prop where
  calls : ∀ method ∈ c.methods, ∀ name arguments,
    .call (.thisProperty name) arguments ∈ method.body.walk →
      arguments = [] ∧ ∃ called ∈ c.methods, called.name = name
  /-- A provider is called on the instance of a module that declares it. -/
  instances : ∀ method ∈ c.methods, ∀ field name arguments,
    .call (.property (.thisProperty field) name) arguments ∈ method.body.walk →
      ∃ owner, ∃ id ∈ (graph.getModule owner).providers, name = (graph.getProvider id).name ∧
        field = graph.moduleField owner ∧ graph.HoldsInstance c owner
  /-- The built-in set is the only class of which a method creates an instance. -/
  sets : ∀ method ∈ c.methods, ∀ name arguments,
    .construct name arguments ∈ method.body.walk → name = TypeTable.setName
  base : ∃ i ∈ file.imports, i.name = c.base
  created : ∀ body ∈ c.constructors, ∀ statement ∈ body, ∀ name arguments,
    .construct name arguments ∈ statement.walk → ∃ i ∈ file.imports, i.name = name

variable {graph : Graph} {id : ComponentId} {resolution : Resolution} {plan : Plan}

theorem call_mem_walk_awaitIf {name : String} {async : Bool} {callee : Expression}
    {arguments : List Expression} :
    .call callee arguments ∈ ((Expression.call (.thisProperty name) []).awaitIf async).walk ↔
      callee = .thisProperty name ∧ arguments = [] := by
  cases async <;> simp [Expression.awaitIf, Expression.walk, Expression.walkAll,
    Expression.thisProperty]

theorem construct_notMem_walk_awaitIf {name className : String} {async : Bool}
    {arguments : List Expression} : .construct className arguments ∉
      ((Expression.call (.thisProperty name) []).awaitIf async).walk := by
  cases async <;> simp [Expression.awaitIf, Expression.walk, Expression.walkAll,
    Expression.thisProperty]

theorem call_mem_walk_accessorBody {values arguments : List Expression} {callee : Expression} :
    .call callee arguments ∈ (graph.accessorBody plan values).walk ↔
      (∃ owner provider, plan.key = .provide owner provider ∧ arguments = values ∧
        callee = .property (.thisProperty (graph.moduleField owner))
          (graph.getProvider provider).name) ∨
      ∃ value ∈ values, .call callee arguments ∈ value.walk := by
  cases plan with
  | provide type owner provider children async =>
      simp [accessorBody, Plan.key, Expression.walk, Expression.walkAll_eq_flatMap,
        Expression.thisProperty, and_comm]
  | collect number type owner elements async =>
      simp [accessorBody, Plan.key, Expression.walk, Expression.walkAll_eq_flatMap]

theorem construct_mem_walk_accessorBody {values arguments : List Expression} {className : String}
    (h : .construct className arguments ∈ (graph.accessorBody plan values).walk) :
    className = TypeTable.setName ∨
      ∃ value ∈ values, .construct className arguments ∈ value.walk := by
  cases plan with
  | provide type owner provider children async =>
      right
      simpa [accessorBody, Expression.walk, Expression.walkAll_eq_flatMap,
        Expression.thisProperty] using h
  | collect number type owner elements async =>
      rcases List.mem_cons.mp h with heq | hbelow
      · exact Or.inl (Expression.construct.inj heq).1
      · right
        simpa [Expression.walk, Expression.walkAll_eq_flatMap] using hbelow

theorem mem_methods_implementation {method : Method} :
    method ∈ (graph.implementation resolution).methods ↔
      (∃ item ∈ resolution.resolvers, graph.overrideIn resolution item = method) ∨
      ∃ plan ∈ resolution.plans, graph.accessorIn resolution plan = method := by
  rw [methods_implementation, List.mem_append, List.mem_map, List.mem_map]

theorem constructors_implementation (graph : Graph) (resolution : Resolution) :
    (graph.implementation resolution).constructors =
      [graph.constructorBody resolution.modules] := by
  simp [implementation, Class.constructors, List.filterMap_map]

/-- Every plan of the walk has an accessor. -/
theorem exists_method (h : graph.resolution id = .ok resolution) (hplan : plan ∈ resolution.walk) :
    ∃ called ∈ (graph.implementation resolution).methods,
      called.name = graph.nameIn resolution plan := by
  obtain ⟨stored, hstored⟩ := (shared_of_resolution h).exists_stored hplan
  refine ⟨graph.accessorIn resolution stored, ?_, ?_⟩
  · exact mem_methods_implementation.mpr (Or.inr ⟨stored, (firstAt_eq_some hstored).1, rfl⟩)
  · rw [← emitted_of_firstAt hstored, name_emitted h hplan]

theorem filter_assigns (hbuilt : graph.Built) (h : graph.resolution id = .ok resolution)
    {owner : ModuleId} (howner : owner ∈ resolution.modules) :
    (resolution.modules.map graph.instanceAssignment).filter
      (Statement.assigns (graph.moduleField owner)) = [graph.instanceAssignment owner] := by
  have hlt := lt_of_mem_modules hbuilt.closed h
  have hsame : ∀ other ∈ resolution.modules,
      (Statement.assigns (graph.moduleField owner) ∘ graph.instanceAssignment) other =
        (other == owner) := by
    intro other hother
    rw [Bool.eq_iff_iff, beq_iff_eq, Function.comp_apply]
    refine ⟨fun hassigns ↦ ?_, ?_⟩
    · exact moduleField_inj hbuilt (hlt other hother) (hlt owner howner) (beq_iff_eq.mp hassigns)
    · rintro rfl
      exact beq_self_eq_true _
  rw [List.filter_map, List.filter_congr hsame, List.filter_beq,
    List.count_eq_one_of_mem (nodup_modules h) howner]
  rfl

theorem holdsInstance (hbuilt : graph.Built) (h : graph.resolution id = .ok resolution)
    {owner : ModuleId} (howner : owner ∈ resolution.modules) :
    graph.HoldsInstance (graph.implementation resolution) owner where
  declared := ⟨graph.instanceField owner,
    fields_implementation graph resolution ▸ List.mem_map_of_mem howner, rfl⟩
  assigned := ⟨resolution.modules.map graph.instanceAssignment,
    constructors_implementation graph resolution, filter_assigns hbuilt h howner⟩

/-- A method calls an accessor of the class, or a provider on the instance of its module. -/
theorem call_mem_walk_body (h : graph.resolution id = .ok resolution) {method : Method}
    (hmethod : method ∈ (graph.implementation resolution).methods) {callee : Expression}
    {arguments : List Expression} (hcall : .call callee arguments ∈ method.body.walk) :
    (∃ plan ∈ resolution.walk, callee = .thisProperty (graph.nameIn resolution plan) ∧
      arguments = []) ∨
    ∃ plan ∈ resolution.walk, ∃ owner provider, plan.key = .provide owner provider ∧
      callee = .property (.thisProperty (graph.moduleField owner))
        (graph.getProvider provider).name := by
  rcases mem_methods_implementation.mp hmethod with ⟨item, hitem, rfl⟩ | ⟨plan, hplan, rfl⟩
  · have hbody : .call callee arguments ∈ ((Expression.call (.thisProperty
        (graph.nameIn resolution item.plan)) []).awaitIf false).walk := hcall
    exact Or.inl ⟨item.plan, mem_walk_of_mem_called h (mem_called_of_mem_resolvers hitem),
      call_mem_walk_awaitIf.mp hbody⟩
  · rcases call_mem_walk_accessorBody.mp hcall with ⟨owner, provider, hkey, -, hcallee⟩ | hvalue
    · exact Or.inr ⟨plan, mem_walk_of_mem_plans h hplan, owner, provider, hkey, hcallee⟩
    · obtain ⟨value, hvalue, hcall⟩ := hvalue
      obtain ⟨child, hchild, rfl⟩ := List.mem_map.mp hvalue
      exact Or.inl ⟨child, mem_walk_of_mem_called h (mem_called_of_mem_children hplan hchild),
        call_mem_walk_awaitIf.mp hcall⟩

theorem construct_mem_walk_body {method : Method}
    (hmethod : method ∈ (graph.implementation resolution).methods) {className : String}
    {arguments : List Expression} (hcreated : .construct className arguments ∈ method.body.walk) :
    className = TypeTable.setName := by
  rcases mem_methods_implementation.mp hmethod with ⟨item, -, rfl⟩ | ⟨plan, -, rfl⟩
  · have hbody : .construct className arguments ∈ ((Expression.call (.thisProperty
        (graph.nameIn resolution item.plan)) []).awaitIf false).walk := hcreated
    exact (construct_notMem_walk_awaitIf hbody).elim
  · rcases construct_mem_walk_accessorBody hcreated with hset | ⟨value, hvalue, hbelow⟩
    · exact hset
    · obtain ⟨child, -, rfl⟩ := List.mem_map.mp hvalue
      exact (construct_notMem_walk_awaitIf hbelow).elim

/-! ## Closed implementations -/

/-- The imports name the base of the class and the modules that it creates. -/
structure ImportsFor (graph : Graph) (resolution : Resolution) (imports : List Import) : Prop where
  base : ∃ i ∈ imports, i.name = (graph.implementation resolution).base
  modules : ∀ owner ∈ resolution.modules, ∃ i ∈ imports, i.name = (graph.getModule owner).name

theorem closedIn_implementation (hbuilt : graph.Built) (h : graph.resolution id = .ok resolution)
    {file : File} (himports : graph.ImportsFor resolution file.imports) :
    graph.ClosedIn file (graph.implementation resolution) where
  calls := by
    intro method hmethod name arguments hcall
    rcases call_mem_walk_body h hmethod hcall with ⟨plan, hplan, hcallee, rfl⟩ |
      ⟨plan, -, owner, provider, -, hcallee⟩
    · obtain ⟨-, rfl⟩ := Expression.property.inj hcallee
      exact ⟨rfl, exists_method h hplan⟩
    · exact Expression.noConfusion (Expression.property.inj hcallee).1
  instances := by
    intro method hmethod field name arguments hcall
    rcases call_mem_walk_body h hmethod hcall with ⟨plan, -, hcallee, -⟩ |
      ⟨plan, hplan, owner, provider, hkey, hcallee⟩
    · exact Expression.noConfusion (Expression.property.inj hcallee).1
    · obtain ⟨hfield, rfl⟩ := Expression.property.inj hcallee
      obtain ⟨-, rfl⟩ := Expression.property.inj hfield
      obtain ⟨hdeclared, howner⟩ := declared_of_mem_walk h hplan hkey
      exact ⟨owner, provider, hdeclared, rfl, rfl,
        holdsInstance hbuilt h ((mem_modules_iff h).mpr ⟨plan, hplan, howner⟩)⟩
  sets := fun method hmethod name arguments ↦ construct_mem_walk_body hmethod
  base := himports.base
  created := by
    rw [constructors_implementation, List.forall_mem_singleton, constructorBody]
    refine List.forall_mem_cons.mpr ⟨fun _ _ hcreated ↦ (List.not_mem_nil hcreated).elim, ?_⟩
    intro statement hstatement name arguments hcreated
    obtain ⟨owner, howner, rfl⟩ := List.mem_map.mp hstatement
    obtain ⟨rfl, -⟩ : name = (graph.getModule owner).name ∧ arguments = [] := by
      simpa [instanceAssignment, Statement.walk, Expression.walk, Expression.walkAll,
        Expression.thisProperty] using hcreated
    exact himports.modules owner howner

theorem mem_mergeImports {present more : List Import} {i : Import} :
    i ∈ mergeImports present more ↔ i ∈ present ∨ i ∈ more := by
  induction more generalizing present with
  | nil => simp [mergeImports]
  | cons next more ih =>
      have hstep : mergeImports present (next :: more) =
          mergeImports (if present.contains next then present else present ++ [next]) more := rfl
      rw [hstep, ih, List.mem_cons, ← or_assoc]
      refine or_congr_left ?_
      split_ifs with hknown
      · have hmem : next ∈ present := by simpa using hknown
        exact (or_iff_left_of_imp fun heq ↦ heq ▸ hmem).symm
      · simp

/-- Something holds of every class and the imports of its file.  Further imports do no harm to it,
so it still holds when a class is placed of which it holds. -/
theorem forall_classes_placeClass {P : List Import → Code.Class → Prop}
    (hmore : ∀ present more c, present ⊆ more → P present c → P more c) {path : Path}
    {imports : List Import} {c : Code.Class} (hnew : P imports c) {files : List File}
    (hfiles : ∀ file ∈ files, ∀ placed ∈ file.classes, P file.imports placed) :
    ∀ file ∈ placeClass path imports c files, ∀ placed ∈ file.classes, P file.imports placed := by
  induction files with
  | nil =>
      rw [placeClass, List.forall_mem_singleton]
      exact List.forall_mem_singleton.mpr hnew
  | cons file files ih =>
      obtain ⟨hfile, hrest⟩ := List.forall_mem_cons.mp hfiles
      rw [placeClass]
      split_ifs
      · refine List.forall_mem_cons.mpr ⟨?_, hrest⟩
        refine List.forall_mem_append.mpr ⟨fun placed hplaced ↦ ?_, ?_⟩
        · exact hmore _ _ _ (fun i hi ↦ mem_mergeImports.mpr (Or.inl hi)) (hfile placed hplaced)
        · refine List.forall_mem_singleton.mpr ?_
          exact hmore _ _ _ (fun i hi ↦ mem_mergeImports.mpr (Or.inr hi)) hnew
      · exact List.forall_mem_cons.mpr ⟨hfile, ih hrest⟩

theorem ImportsFor.mono {imports more : List Import} (h : graph.ImportsFor resolution imports)
    (hmore : imports ⊆ more) : graph.ImportsFor resolution more where
  base := h.base.imp fun _ hi ↦ ⟨hmore hi.1, hi.2⟩
  modules := fun owner howner ↦ (h.modules owner howner).imp fun _ hi ↦ ⟨hmore hi.1, hi.2⟩

theorem name_of_importOf {directory source : Path} {name : String} {i : Import}
    (h : importOf directory name source = .ok i) : i.name = name := by
  obtain ⟨specifier, -, h⟩ := bind_eq_ok.mp h
  obtain rfl := Except.ok.inj h
  rfl

theorem importsFor_imports {directory : Path} {imports : List Import}
    (h : graph.imports resolution directory = .ok imports) :
    graph.ImportsFor resolution imports := by
  obtain ⟨own, hown, h⟩ := bind_eq_ok.mp h
  obtain ⟨others, hothers, h⟩ := bind_eq_ok.mp h
  obtain rfl := Except.ok.inj h
  refine ⟨⟨own, List.mem_cons_self, name_of_importOf hown⟩, fun owner howner ↦ ?_⟩
  obtain ⟨i, hi, hmodule⟩ := exists_of_mem_forall₂ (forall₂_of_mapM_eq_ok hothers) howner
  exact ⟨i, List.mem_cons_of_mem _ hi, name_of_importOf hmodule⟩

/-- The class is the implementation of one of the resolutions, and the imports are enough for it. -/
def Implements (graph : Graph) (resolutions : List Resolution) (imports : List Import)
    (c : Code.Class) : Prop :=
  ∃ resolution ∈ resolutions, c = graph.implementation resolution ∧
    graph.ImportsFor resolution imports

theorem implements_of_place {resolutions : List Resolution} (hresolution : resolution ∈ resolutions)
    {files last : List File}
    (hfiles : ∀ file ∈ files, ∀ c ∈ file.classes, graph.Implements resolutions file.imports c)
    (h : graph.place files resolution = .ok last) :
    ∀ file ∈ last, ∀ c ∈ file.classes, graph.Implements resolutions file.imports c := by
  obtain ⟨path, -, h⟩ := bind_eq_ok.mp h
  obtain ⟨imports, himports, h⟩ := bind_eq_ok.mp h
  obtain rfl := Except.ok.inj h
  refine forall_classes_placeClass ?_ ?_ hfiles
  · rintro present more c hsub ⟨other, hother, hc, hpresent⟩
    exact ⟨other, hother, hc, hpresent.mono hsub⟩
  · exact ⟨resolution, hresolution, rfl, importsFor_imports himports⟩

theorem implements_of_foldlM {resolutions rest : List Resolution} (hrest : rest ⊆ resolutions)
    {before last : List File}
    (hbefore : ∀ file ∈ before, ∀ c ∈ file.classes, graph.Implements resolutions file.imports c)
    (h : rest.foldlM graph.place before = .ok last) :
    ∀ file ∈ last, ∀ c ∈ file.classes, graph.Implements resolutions file.imports c := by
  induction rest generalizing before with
  | nil =>
      obtain rfl : before = last := Except.ok.inj h
      exact hbefore
  | cons resolution rest ih =>
      rw [List.foldlM_cons] at h
      obtain ⟨middle, hmiddle, h⟩ := bind_eq_ok.mp h
      obtain ⟨hresolution, hlater⟩ := List.cons_subset.mp hrest
      exact ih hlater (implements_of_place hresolution hbefore hmiddle) h

/-- Every class of the files that are generated for resolutions of a graph is closed in its file,
also where several components share the file. -/
theorem files_closed (hbuilt : graph.Built) {resolutions : List Resolution}
    (hresolutions : ∀ resolution ∈ resolutions, ∃ id, graph.resolution id = .ok resolution)
    {files : List File} (h : graph.filesOf resolutions = .ok files) :
    ∀ file ∈ files, ∀ c ∈ file.classes, graph.ClosedIn file c := by
  intro file hfile c hc
  have hplaced := implements_of_foldlM (List.Subset.refl _) (List.forall_mem_nil _) h
  obtain ⟨resolution, hresolution, rfl, himports⟩ := hplaced file hfile c hc
  obtain ⟨id, hid⟩ := hresolutions resolution hresolution
  exact closedIn_implementation hbuilt hid himports

/-- Two components of one source, each with a root module of its own. -/
def siteAndTimer : Graph where
  types := (((TypeTable.empty.intern (.nominal "Page")).2.intern (.generic "Set" [0])).2.intern
    (.nominal "Clock")).2
  modules := [⟨"Pages", ⟨"pages.ts"⟩, [0, 1], [], []⟩, ⟨"Clocks", ⟨"clocks.ts"⟩, [2], [], []⟩]
  providers := [⟨"home", 0, [], 0, false⟩, ⟨"help", 0, [], 0, false⟩, ⟨"clock", 1, [], 2, false⟩]
  components := [⟨"Site", ⟨"site.ts"⟩, 0, [⟨"pages", 1⟩]⟩,
    ⟨"Timer", ⟨"site.ts"⟩, 1, [⟨"clock", 2⟩]⟩]

theorem siteAndTimer_built : siteAndTimer.Built := by
  have htypes := ((Built.empty.intern (.nominal "Page") (by decide)).intern (.generic "Set" [0])
    (by decide)).intern (.nominal "Clock") (by decide)
  have hmodules := (htypes.addModule "Pages" ⟨"pages.ts"⟩ rfl).addModule "Clocks" ⟨"clocks.ts"⟩ rfl
  have hpages := (hmodules.addProvider 0 "home" [] 0 false (by decide) (by decide)
    (by decide)).addProvider 0 "help" [] 0 false (by decide) (by decide) (by decide)
  have hclock := hpages.addProvider 1 "clock" [] 2 false (by decide) (by decide) (by decide)
  have hsite := hclock.addComponent "Site" ⟨"site.ts"⟩ 0 (by decide) rfl
  have htimer := (hsite.addResolver 0 "pages" 1 (by decide) (by decide)).addComponent "Timer"
    ⟨"site.ts"⟩ 1 (by decide) rfl
  exact htimer.addResolver 1 "clock" 2 (by decide) (by decide)

def siteResolution : Resolution :=
  let home : Plan := .provide 0 0 0 [] false
  let help : Plan := .provide 0 0 1 [] false
  let pages : Plan := .collect 0 1 0 [home, help] false
  { component := 0
    resolvers := [⟨"pages", pages⟩]
    modules := [0]
    plans := [pages, home, help] }

def timerResolution : Resolution :=
  let clock : Plan := .provide 2 1 2 [] false
  { component := 1
    resolvers := [⟨"clock", clock⟩]
    modules := [1]
    plans := [clock] }

/-- The one file of both components. -/
def siteFile : File where
  path := ⟨"gen/site.ts"⟩
  imports := [⟨"Site", "../site.js"⟩, ⟨"Pages", "../pages.js"⟩, ⟨"Timer", "../site.js"⟩,
    ⟨"Clocks", "../clocks.js"⟩]
  classes := [siteAndTimer.implementation siteResolution,
    siteAndTimer.implementation timerResolution]

theorem siteAndTimer_closed : siteAndTimer.Built ∧
    (∀ resolution ∈ [siteResolution, timerResolution],
      ∃ id, siteAndTimer.resolution id = .ok resolution) ∧
    siteAndTimer.filesOf [siteResolution, timerResolution] = .ok [siteFile] ∧
    ∀ c ∈ siteFile.classes, siteAndTimer.ClosedIn siteFile c := by
  have hsite : siteAndTimer.resolution 0 = .ok siteResolution := by cbv
  have htimer : siteAndTimer.resolution 1 = .ok timerResolution := by cbv
  have hresolutions : ∀ resolution ∈ [siteResolution, timerResolution],
      ∃ id, siteAndTimer.resolution id = .ok resolution :=
    List.forall_mem_cons.mpr ⟨⟨0, hsite⟩, List.forall_mem_singleton.mpr ⟨1, htimer⟩⟩
  have hfiles : siteAndTimer.filesOf [siteResolution, timerResolution] = .ok [siteFile] := rfl
  exact ⟨siteAndTimer_built, hresolutions, hfiles, fun c hc ↦
    files_closed siteAndTimer_built hresolutions hfiles siteFile List.mem_cons_self c hc⟩

end Graph

end Wiring
