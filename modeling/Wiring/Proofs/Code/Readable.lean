import Wiring.Proofs.Code.Closed
import Wiring.Proofs.Code.Grouped
import Wiring.Proofs.Code.MemberNames
import Wiring.Proofs.Code.Printed
import Wiring.Proofs.Code.Promised

/-!
# Generated files are readable

Where the names of a graph are names, so are all those in the files generated for it, and an await
stands in arguments and elements only, never in front of something that is applied to it.
-/

namespace Wiring

namespace Code

theorem IsWord.append {front back : String} (hfront : IsWord front) (hback : IsWord back) :
    IsWord (front ++ back) := by
  intro c hc
  rw [String.toList_append] at hc
  rcases List.mem_append.mp hc with hc | hc
  · exact hfront c hc
  · exact hback c hc

theorem isWord_of_all {word : String} (h : word.toList.all isNamePart = true) : IsWord word :=
  List.all_eq_true.mp h

theorem isWord_toString (n : ℕ) : IsWord (toString n) := by
  rw [Nat.toString_eq_ofList_toDigits]
  intro c hc
  rw [String.toList_ofList] at hc
  have hdigit := Nat.isDigit_of_mem_toDigits (by decide) (by decide) hc
  simp [isNamePart, Text.isAlphanumeric, Text.isNumeric, hdigit]

theorem isName_of_notMem {name : String} (h : IsWord name)
    (hne : name ∉ ["", "this", "new", "await"]) : isName name = true := by
  obtain ⟨hempty, hkeywords⟩ := not_or.mp fun h ↦ hne (List.mem_cons.mpr h)
  have hparts : name.toList.all isNamePart = true := List.all_eq_true.mpr h
  simpa [isName, hempty, hparts] using hkeywords

/-- No keyword begins with an underscore. -/
theorem isMemberName_underscore {word : String} (h : IsWord word) :
    isMemberName ("_" ++ word) = true := by
  have hheads : (["", "this", "new", "await", "constructor"].all
      (·.toList.head? != some '_')) = true := by decide
  have hhead : ("_" ++ word).toList.head? = some '_' := by
    rw [String.toList_append]
    rfl
  have hnone : ∀ other ∈ ["", "this", "new", "await", "constructor"], "_" ++ word ≠ other := by
    rintro _ hother rfl
    have hother := List.all_eq_true.mp hheads _ hother
    rw [hhead] at hother
    exact absurd hother (by decide)
  have hunderscore : IsWord "_" := isWord_of_all (by decide +kernel)
  have hname := isName_of_notMem (hunderscore.append h) fun hmem ↦
    hnone _ (List.mem_append_left ["constructor"] hmem) rfl
  simp [isMemberName, hname, hnone "constructor" (by simp)]

/-- No keyword ends with the mark of implementations. -/
theorem isName_impl {name : String} (h : IsWord name) : isName (name ++ "Impl") = true := by
  have hlasts : (["", "this", "new", "await"].all (·.toList.getLast? != some 'l')) = true := by
    decide
  have himpl : IsWord "Impl" := isWord_of_all (by decide)
  refine isName_of_notMem (h.append himpl) fun hmem ↦ ?_
  have hlast : (name ++ "Impl").toList.getLast? = some 'l' := by
    rw [String.toList_append, List.getLast?_append]
    rfl
  have hkeyword := List.all_eq_true.mp hlasts _ hmem
  rw [hlast] at hkeyword
  exact absurd hkeyword (by decide)

end Code

namespace Graph

open Code

/-- Modules, providers and components have names, and resolvers names of members. -/
structure Worded (graph : Graph) : Prop where
  modules : ∀ decl ∈ graph.modules, isName decl.name = true
  providers : ∀ provider ∈ graph.providers, isName provider.name = true
  components : ∀ component ∈ graph.components, isName component.name = true
  resolvers : ∀ component ∈ graph.components, ∀ resolver ∈ component.resolvers,
    isMemberName resolver.name = true

variable {graph : Graph} {resolution : Resolution} {id : ComponentId}

theorem Worded.getModule (h : graph.Worded) {owner : ModuleId}
    (howner : owner < graph.modules.length) : isName (graph.getModule owner).name = true := by
  rw [Graph.getModule, List.getD_eq_getElem _ _ howner]
  exact h.modules _ (List.getElem_mem howner)

theorem Worded.getProvider (h : graph.Worded) {provider : ProviderId}
    (hprovider : provider < graph.providers.length) :
    isName (graph.getProvider provider).name = true := by
  rw [Graph.getProvider, List.getD_eq_getElem _ _ hprovider]
  exact h.providers _ (List.getElem_mem hprovider)

theorem Worded.getComponent (h : graph.Worded) (hid : id < graph.components.length) :
    isName (graph.getComponent id).name = true ∧
      ∀ resolver ∈ (graph.getComponent id).resolvers, isMemberName resolver.name = true := by
  rw [Graph.getComponent, List.getD_eq_getElem _ _ hid]
  exact ⟨h.components _ (List.getElem_mem hid), h.resolvers _ (List.getElem_mem hid)⟩

theorem isMemberName_moduleField (h : graph.Worded) {owner : ModuleId}
    (howner : owner < graph.modules.length) : isMemberName (graph.moduleField owner) = true :=
  isMemberName_underscore (isNamePart_of_isName (h.getModule howner))

theorem isMemberName_nameIn (hbuilt : graph.Built) (hworded : graph.Worded)
    (h : graph.resolution id = .ok resolution) {plan : Plan} (hplan : plan ∈ resolution.walk) :
    isMemberName (graph.nameIn resolution plan) = true := by
  have howner : IsWord (graph.getModule plan.owner).name :=
    isNamePart_of_isName (hworded.getModule (owner_lt_of_mem_walk hbuilt.closed h hplan))
  have hown : IsWord (graph.ownName resolution plan) := by
    cases plan with
    | provide type owner provider arguments async =>
        have hdeclared := (declared_of_mem_walk h hplan rfl).1
        have hlt := hbuilt.unrepeated.declared_lt owner provider hdeclared
        exact isNamePart_of_isName (hworded.getProvider hlt)
    | collect number type owner elements async =>
        have hsynthetic : IsWord "synthetic_" := isWord_of_all (by decide +kernel)
        exact hsynthetic.append (isWord_toString _)
  have hunderscore : IsWord "_" := isWord_of_all (by decide +kernel)
  rw [nameIn_eq, moduleField, String.append_assoc, String.append_assoc]
  exact isMemberName_underscore (howner.append (hunderscore.append hown))

/-! ## Members -/

theorem isName_of_isMemberName {name : String} (h : isMemberName name = true) :
    isName name = true :=
  (Bool.and_eq_true_iff.mp h).1

theorem readable_invocation {name : String} (h : isMemberName name = true) :
    (Expression.call (.thisProperty name) []).readable = true := by
  simp [Expression.readable, Expression.thisProperty, Expression.isAwait, Expression.allReadable,
    isName_of_isMemberName h]

theorem readable_awaitIf (condition : Bool) (inner : Expression) :
    (inner.awaitIf condition).readable = inner.readable := by
  cases condition <;> rfl

theorem readable_overrideIn (hbuilt : graph.Built) (hworded : graph.Worded)
    (h : graph.resolution id = .ok resolution) (hid : id < graph.components.length)
    {item : ResolvedResolver} (hitem : item ∈ resolution.resolvers) :
    (Member.method (graph.overrideIn resolution item)).readable = true := by
  have hname : isMemberName item.name = true := by
    have hresolvers := forall₂_of_resolveAll (resolution_eq_ok h).1
    obtain ⟨resolver, hresolver, hsame, -⟩ := exists_of_mem_forall₂ hresolvers.flip hitem
    rw [hsame]
    exact (hworded.getComponent hid).2 resolver hresolver
  have hplan := mem_walk_of_mem_called h (mem_called_of_mem_resolvers hitem)
  have hbody := readable_invocation (isMemberName_nameIn hbuilt hworded h hplan)
  exact Bool.and_eq_true_iff.mpr ⟨hname, hbody⟩

theorem readable_accessorBody {plan : Plan} {values : List Expression}
    (hfield : isName (graph.moduleField plan.owner) = true)
    (hprovider : ∀ owner provider, plan.key = .provide owner provider →
      isName (graph.getProvider provider).name = true)
    (hvalues : Expression.allReadable values = true) :
    (graph.accessorBody plan values).readable = true := by
  cases plan with
  | provide type owner provider arguments async =>
      have hname := hprovider owner provider rfl
      simp_all [accessorBody, Expression.readable, Expression.thisProperty, Expression.isAwait,
        Plan.owner]
  | collect number type owner elements async =>
      have hset : isName TypeTable.setName = true := by decide
      simp [accessorBody, Expression.readable, Expression.allReadable, hset, hvalues]

theorem readable_accessorIn (hbuilt : graph.Built) (hworded : graph.Worded)
    (h : graph.resolution id = .ok resolution) {plan : Plan} (hplan : plan ∈ resolution.plans) :
    (Member.method (graph.accessorIn resolution plan)).readable = true := by
  have hwalk := mem_walk_of_mem_plans h hplan
  have hname := isMemberName_nameIn hbuilt hworded h hwalk
  have hfield := isMemberName_moduleField hworded (owner_lt_of_mem_walk hbuilt.closed h hwalk)
  refine Bool.and_eq_true_iff.mpr ⟨hname, ?_⟩
  refine readable_accessorBody (isName_of_isMemberName hfield) (fun owner provider hkey ↦ ?_) ?_
  · have hdeclared := (declared_of_mem_walk h hwalk hkey).1
    exact hworded.getProvider (hbuilt.unrepeated.declared_lt owner provider hdeclared)
  · refine Expression.allReadable_iff.mpr (List.forall_mem_map.mpr fun child hchild ↦ ?_)
    have hcalled := mem_walk_of_mem_called h (mem_called_of_mem_children hplan hchild)
    rw [readable_awaitIf]
    exact readable_invocation (isMemberName_nameIn hbuilt hworded h hcalled)

theorem readable_instanceAssignment (hworded : graph.Worded) {owner : ModuleId}
    (howner : owner < graph.modules.length) :
    (graph.instanceAssignment owner).readable = true := by
  have hfield := isName_of_isMemberName (isMemberName_moduleField hworded howner)
  simp [instanceAssignment, Statement.readable, Expression.readable, Expression.thisProperty,
    Expression.isAwait, Expression.allReadable, hfield, hworded.getModule howner]

theorem readable_implementation (hbuilt : graph.Built) (hworded : graph.Worded)
    (h : graph.resolution id = .ok resolution) (hid : id < graph.components.length) :
    (graph.implementation resolution).readable = true := by
  have hmembers : (graph.implementation resolution).members =
      (resolution.resolvers.map fun item ↦ .method (graph.overrideIn resolution item)) ++
        resolution.modules.map (fun owner ↦ .field (graph.instanceField owner)) ++
        [.constructor (graph.constructorBody resolution.modules)] ++
        resolution.plans.map fun plan ↦ .method (graph.accessorIn resolution plan) := by
    have hoverrides := graph.overrides_eq_map resolution
    have haccessors := graph.accessors_eq_map resolution
    simp only [implementation, hoverrides, haccessors, List.map_map]
    rfl
  have hlt := lt_of_mem_modules hbuilt.closed h
  have hname : isName (graph.getComponent resolution.component).name = true := by
    rw [component_of_resolution h]
    exact (hworded.getComponent hid).1
  refine Bool.and_eq_true_iff.mpr ⟨Bool.and_eq_true_iff.mpr
    ⟨isName_impl (isNamePart_of_isName hname), hname⟩, List.all_eq_true.mpr ?_⟩
  rw [hmembers]
  refine List.forall_mem_append.mpr ⟨List.forall_mem_append.mpr ⟨List.forall_mem_append.mpr
    ⟨?overrides, ?fields⟩, ?constructor⟩, ?accessors⟩
  case overrides =>
    exact List.forall_mem_map.mpr fun item hitem ↦ readable_overrideIn hbuilt hworded h hid hitem
  case fields =>
    exact List.forall_mem_map.mpr fun owner howner ↦
      isMemberName_moduleField hworded (hlt owner howner)
  case constructor =>
    refine List.forall_mem_singleton.mpr (List.all_eq_true.mpr ?_)
    exact List.forall_mem_cons.mpr ⟨rfl, List.forall_mem_map.mpr fun owner howner ↦
      readable_instanceAssignment hworded (hlt owner howner)⟩
  case accessors =>
    exact List.forall_mem_map.mpr fun plan hplan ↦ readable_accessorIn hbuilt hworded h hplan

theorem forall_imports_placeClass {P : Import → Prop} {path : Path} {imports : List Import}
    {c : Code.Class} (hnew : ∀ i ∈ imports, P i) {files : List File}
    (hfiles : ∀ file ∈ files, ∀ i ∈ file.imports, P i) :
    ∀ file ∈ placeClass path imports c files, ∀ i ∈ file.imports, P i := by
  induction files with
  | nil => exact List.forall_mem_singleton.mpr hnew
  | cons file files ih =>
      obtain ⟨hfile, hrest⟩ := List.forall_mem_cons.mp hfiles
      rw [placeClass]
      split_ifs
      · refine List.forall_mem_cons.mpr ⟨fun i hi ↦ ?_, hrest⟩
        exact (mem_mergeImports.mp hi).elim (hfile i) (hnew i)
      · exact List.forall_mem_cons.mpr ⟨hfile, ih hrest⟩

theorem isName_of_mem_imports (hbuilt : graph.Built) (hworded : graph.Worded)
    (h : graph.resolution id = .ok resolution) (hid : id < graph.components.length)
    {directory : Path} {imports : List Import}
    (himports : graph.imports resolution directory = .ok imports) :
    ∀ i ∈ imports, isName i.name = true := by
  obtain ⟨own, hown, himports⟩ := bind_eq_ok.mp himports
  obtain ⟨others, hothers, himports⟩ := bind_eq_ok.mp himports
  obtain rfl := Except.ok.inj himports
  refine List.forall_mem_cons.mpr ⟨?_, fun i hi ↦ ?_⟩
  · rw [name_of_importOf hown, component_of_resolution h]
    exact (hworded.getComponent hid).1
  · obtain ⟨owner, howner, hmodule⟩ :=
      exists_of_mem_forall₂ (forall₂_of_mapM_eq_ok hothers).flip hi
    rw [name_of_importOf hmodule]
    exact hworded.getModule (lt_of_mem_modules hbuilt.closed h owner howner)

/-- What has been placed so far is readable, specifiers apart. -/
def PlacedReadable (files : List File) : Prop :=
  ∀ file ∈ files, (∀ i ∈ file.imports, isName i.name = true) ∧
    ∀ c ∈ file.classes, c.readable = true

theorem placedReadable_of_place (hbuilt : graph.Built) (hworded : graph.Worded)
    (h : graph.resolution id = .ok resolution) (hid : id < graph.components.length)
    {files last : List File} (hfiles : PlacedReadable files)
    (hplace : graph.place files resolution = .ok last) : PlacedReadable last := by
  obtain ⟨path, -, hplace⟩ := bind_eq_ok.mp hplace
  obtain ⟨imports, himports, hplace⟩ := bind_eq_ok.mp hplace
  obtain rfl := Except.ok.inj hplace
  have hnames := isName_of_mem_imports hbuilt hworded h hid himports
  have hclass := readable_implementation hbuilt hworded h hid
  intro file hfile
  refine ⟨forall_imports_placeClass hnames (fun file hfile ↦ (hfiles file hfile).1) file hfile, ?_⟩
  exact forall_classes_placeClass (P := fun _ c ↦ c.readable = true) (fun _ _ _ _ hc ↦ hc) hclass
    (fun file hfile ↦ (hfiles file hfile).2) file hfile

theorem placedReadable_of_foldlM (hbuilt : graph.Built) (hworded : graph.Worded)
    {resolutions : List Resolution}
    (hresolutions : ∀ resolution ∈ resolutions,
      ∃ id < graph.components.length, graph.resolution id = .ok resolution)
    {before last : List File} (hbefore : PlacedReadable before)
    (h : resolutions.foldlM graph.place before = .ok last) : PlacedReadable last := by
  induction resolutions generalizing before with
  | nil =>
      obtain rfl : before = last := Except.ok.inj h
      exact hbefore
  | cons resolution rest ih =>
      obtain ⟨⟨id, hid, hresolution⟩, hrest⟩ := List.forall_mem_cons.mp hresolutions
      rw [List.foldlM_cons] at h
      obtain ⟨middle, hmiddle, h⟩ := bind_eq_ok.mp h
      have hplaced := placedReadable_of_place hbuilt hworded hresolution hid hbefore hmiddle
      exact ih hrest hplaced h

/-- The files for a graph whose names are names are readable, where no specifier has quotes. -/
theorem readable_of_implementations (hbuilt : graph.Built) (hworded : graph.Worded)
    {files : List File} (h : graph.implementations = .ok files) :
    ∀ file ∈ files, (∀ i ∈ file.imports, i.specifier.toList.all (· != '"') = true) →
      file.readable = true := by
  obtain ⟨resolutions, hresolutions, hfiles⟩ := bind_eq_ok.mp h
  have hresolved : ∀ resolution ∈ resolutions,
      ∃ id < graph.components.length, graph.resolution id = .ok resolution := by
    intro resolution hresolution
    obtain ⟨id, hid, h⟩ :=
      exists_of_mem_forall₂ (forall₂_of_mapM_eq_ok hresolutions).flip hresolution
    exact ⟨id, List.mem_range.mp hid, h⟩
  have hplaced :=
    placedReadable_of_foldlM hbuilt hworded hresolved (List.forall_mem_nil _) hfiles
  intro file hfile hspecifiers
  obtain ⟨hnames, hclasses⟩ := hplaced file hfile
  have himports : file.imports.all Import.readable = true := List.all_eq_true.mpr fun i hi ↦
    Bool.and_eq_true_iff.mpr ⟨hnames i hi, hspecifiers i hi⟩
  exact Bool.and_eq_true_iff.mpr ⟨himports, List.all_eq_true.mpr hclasses⟩

end Graph

end Wiring
