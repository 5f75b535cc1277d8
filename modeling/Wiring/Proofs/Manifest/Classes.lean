import Wiring.Proofs.Manifest.Declared
import Wiring.Proofs.TypeExpr.Spelled
import Wiring.Proofs.Types.Fielded

/-!
# Classes of a manifest

A class of a manifest can have a field of one name twice, once by a key with a question mark.  It
then wants both, while the object type of the same fields is the one that has the first.  Where no
name comes twice, a class and the object type of its fields compare alike.
-/

namespace Wiring

namespace Scope

variable {scope : Scope} {bare : String → Lowering TypeId} {table later : TypeTable}

theorem name_of_lowerFieldWith {expr : FieldExpr} {field : Field}
    (h : (scope.lowerFieldWith bare expr).run table = (.ok field, later)) :
    field.name = expr.name := by
  obtain ⟨name, optional, type⟩ := expr
  rw [lowerFieldWith] at h
  obtain ⟨id, middle, -, h⟩ := Lowering.run_bind_eq_ok h
  split_ifs at h
  · obtain ⟨absent, _, -, h⟩ := Lowering.run_bind_eq_ok h
    obtain ⟨union, _, -, h⟩ := Lowering.run_bind_eq_ok h
    cases h
    rfl
  · cases h
    rfl

theorem names_of_lowerFieldsWith {exprs : List FieldExpr} {fields : List Field}
    (h : (scope.lowerFieldsWith bare exprs).run table = (.ok fields, later)) :
    fields.map Field.name = exprs.map FieldExpr.name := by
  induction exprs generalizing table fields with
  | nil =>
      cases h
      rfl
  | cons expr exprs ih =>
      rw [lowerFieldsWith] at h
      obtain ⟨field, middle, hfield, h⟩ := Lowering.run_bind_eq_ok h
      obtain ⟨rest, last, hrest, h⟩ := Lowering.run_bind_eq_ok h
      cases h
      rw [List.map_cons, List.map_cons, name_of_lowerFieldWith hfield, ih hrest]

end Scope

namespace Manifest

open TypeTable

variable {scope : Scope} {graph : Graph} {entry : ClassEntry} {exprs : List FieldExpr}
  {fields : List Field} {types later : TypeTable}

theorem name_of_fieldExpr {key expression : String} {expr : FieldExpr}
    (h : fieldExpr key expression = .ok expr) : expr.name = (splitOptional key).1 := by
  obtain ⟨type, -, h⟩ := bind_eq_ok.mp h
  cases h
  rfl

/-- The names of the fields are the keys of the class without the question marks. -/
theorem names_of_class
    (hexprs : (entry.fields.mapM fun (key, expression) ↦ fieldExpr key expression) = .ok exprs)
    (hlowered : (scope.lowerFields exprs).run graph.types = (.ok fields, types)) :
    fields.map Field.name = entry.fields.map fun field ↦ (splitOptional field.1).1 := by
  refine (Scope.names_of_lowerFieldsWith hlowered).trans ?_
  refine (map_eq_map_iff_forall₂.mpr ?_).symm
  exact (forall₂_of_mapM_eq_ok hexprs).imp fun _ _ hexpr ↦ (name_of_fieldExpr hexpr).symm

/-- The class whose fields have been recorded and the object type that is interned for them, in
every table that comes of it and in which the class has not been defined anew. -/
theorem classAndShape_of_interned (name : String) (htypes : types.Built)
    (hfields : ∀ field ∈ fields, field.type < types.size)
    (hgrows : (((types.defineClass name fields).intern (.nominal name)).2.intern
      (.shape fields)).2.Grows later)
    (hrecorded : later.classFields name = sortFields fields) :
    later.ClassAndShape ((types.defineClass name fields).intern (.nominal name)).1
      (((types.defineClass name fields).intern (.nominal name)).2.intern (.shape fields)).1
      fields := by
  have hdefined : (types.defineClass name fields).Built := htypes.defineClass name fields hfields
  have hnominal : ∀ part ∈ (Descriptor.nominal name).parts, part < types.size :=
    List.forall_mem_nil _
  have hnamed := hdefined.intern (.nominal name) hnominal
  have hgrown := (types.defineClass name fields).grows_intern (.nominal name)
  have hparts : ∀ part ∈ (Descriptor.shape fields).parts,
      part < ((types.defineClass name fields).intern (.nominal name)).2.size :=
    List.forall_mem_map.mpr fun field hfield ↦ (hfields field hfield).trans_le hgrown.size_le
  constructor
  · refine ⟨name, ?_, hrecorded⟩
    have hclass := hdefined.intern_lt_size hnominal
    rw [((grows_intern _ (.shape fields)).trans hgrows).get_eq hclass]
    exact hdefined.reads_intern hnominal
  · rw [hgrows.get_eq (hnamed.intern_lt_size hparts)]
    exact hnamed.reads_intern hparts

/-- The comparisons of a class and of the object type of the same fields, for every class of a
manifest whose fields can be lowered and in every table that comes of its definition, as long as the
class is not defined anew.  What the object type is assignable to the class is assignable to, and
what is assignable to the class is assignable to the object type.  No comparison tells the two apart
exactly if a type with fields that is assignable to the object type has no field that a repetition
of its name in the class refuses.  That is so where all keys are different without their question
marks. -/
theorem class_comparesAlike_iff (hgraph : graph.types.Built)
    (hexprs : (entry.fields.mapM fun (key, expression) ↦ fieldExpr key expression) = .ok exprs)
    (hlowered : (scope.lowerFields exprs).run graph.types = (.ok fields, types)) :
    let defined := types.defineClass entry.name fields
    let named := defined.intern (.nominal entry.name)
    let shaped := named.2.intern (.shape fields)
    (defineClass scope entry).run graph = .ok ((), { graph with types := defined }) ∧
      ∀ later : TypeTable, later.Built → shaped.2.Grows later →
        later.classFields entry.name = defined.classFields entry.name →
        (∀ t, (later.isAssignable shaped.1 t = true → later.isAssignable named.1 t = true) ∧
          (later.isAssignable t named.1 = true → later.isAssignable t shaped.1 = true)) ∧
        (later.ComparesAlike named.1 shaped.1 ↔
          ∀ t has, later.fieldsOf? (later.get t) = some has →
            later.isAssignable t shaped.1 = true →
              ∀ want ∈ fields, ∀ field, has.find? (·.name == want.name) = some field →
                later.isAssignable field.type want.type = true) ∧
        ((entry.fields.map fun field ↦ (splitOptional field.1).1).Nodup →
          later.ComparesAlike named.1 shaped.1) := by
  intro defined named shaped
  obtain ⟨htypes, hfields⟩ := Scope.present_of_lowerFields hgraph hlowered
  refine ⟨?_, fun later hlater hgrows hrecorded ↦ ?_⟩
  · refine bind_eq_ok.mpr ⟨exprs, hexprs, ?_⟩
    rw [hlowered]
  · rw [Scope.classFields_defineClass, if_pos rfl] at hrecorded
    have hboth := classAndShape_of_interned entry.name htypes hfields hgrows hrecorded
    simp only [isAssignable_iff hlater]
    refine ⟨fun t ↦ ⟨hboth.structural_class_of_shape hlater.normal,
      hboth.structural_to_shape_of_class hlater.normal⟩, hboth.comparesAlike_iff hlater,
      fun hkeys ↦ hboth.comparesAlike_of_nodup hlater ?_⟩
    rwa [names_of_class hexprs hlowered]

/-- A class whose objects may refer to another one of them. -/
def nodeEntry : ClassEntry := ⟨"Node", [("next?", "Node"), ("rank", "1")]⟩

set_option maxRecDepth 4000 in
theorem node_comparesAlike :
    ∃ graph : Graph, (defineClass .empty nodeEntry).run .empty = .ok ((), graph) ∧
      let named := graph.types.intern (.nominal "Node")
      let shaped := named.2.intern (.shape [⟨"next", 2⟩, ⟨"rank", 3⟩])
      shaped.2.Built ∧ shaped.2.get 2 = .union [0, 1] ∧ named.1 = 0 ∧ shaped.1 = 4 ∧
        shaped.2.ComparesAlike 0 4 := by
  let types : TypeTable :=
    ⟨[.nominal "Node", .primitive .undefined, .union [0, 1], .literal (.number "1")], []⟩
  have hexprs : (nodeEntry.fields.mapM fun (key, expression) ↦ fieldExpr key expression) =
      .ok [⟨"next", true, .named "Node" []⟩, ⟨"rank", false, .number "1"⟩] := by cbv
  have hlowered : (Scope.empty.lowerFields
      [⟨"next", true, .named "Node" []⟩, ⟨"rank", false, .number "1"⟩]).run
        Graph.empty.types = (.ok [⟨"next", 2⟩, ⟨"rank", 3⟩], types) := by rfl
  obtain ⟨hdefined, hlater⟩ := class_comparesAlike_iff .empty hexprs hlowered
  have htypes := (Scope.present_of_lowerFields .empty hlowered).1
  have hbuilt := ((htypes.defineClass "Node" [⟨"next", 2⟩, ⟨"rank", 3⟩] (by decide)).intern
    (.nominal "Node") (by decide)).intern (.shape [⟨"next", 2⟩, ⟨"rank", 3⟩]) (by decide)
  refine ⟨_, hdefined, hbuilt, by decide, by decide, by decide, ?_⟩
  exact (hlater _ hbuilt (.refl _) rfl).2.2 (by decide)

/-- The class wants one number and, where the field of the name is there, another one. -/
def labelEntry : ClassEntry := ⟨"Label", [("rank", "1"), ("rank?", "2")]⟩

set_option maxRecDepth 4000 in
/-- The object type of these fields is assignable to itself, but not to the class. -/
theorem label_refuses_shape :
    ∃ graph : Graph, (defineClass .empty labelEntry).run .empty = .ok ((), graph) ∧
      let named := graph.types.intern (.nominal "Label")
      let shaped := named.2.intern (.shape [⟨"rank", 0⟩, ⟨"rank", 3⟩])
      graph.types.classFields "Label" = [⟨"rank", 0⟩, ⟨"rank", 3⟩] ∧
        shaped.2.get 0 = .literal (.number "1") ∧ shaped.2.get 3 = .union [1, 2] ∧
        shaped.2.get named.1 = .nominal "Label" ∧ shaped.2.get shaped.1 = .shape [⟨"rank", 0⟩] ∧
        shaped.2.isAssignable shaped.1 shaped.1 = true ∧
        shaped.2.isAssignable shaped.1 named.1 = false ∧
        ¬ shaped.2.ComparesAlike named.1 shaped.1 := by
  have hrun : ∃ graph : Graph, (defineClass .empty labelEntry).run .empty = .ok ((), graph) ∧
      graph.types = ⟨[.literal (.number "1"), .literal (.number "2"), .primitive .undefined,
        .union [1, 2]], [("Label", [⟨"rank", 0⟩, ⟨"rank", 3⟩])]⟩ := ⟨_, by cbv, rfl⟩
  obtain ⟨graph, hrun, htypes⟩ := hrun
  refine ⟨graph, hrun, ?_⟩
  rw [htypes]
  refine ⟨rfl, by decide, by decide, by decide, by decide, by decide, by decide, fun halike ↦ ?_⟩
  have hsame := (halike 5).2
  exact absurd hsame (by decide)

end Manifest

end Wiring
