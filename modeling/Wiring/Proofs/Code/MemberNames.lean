import Mathlib.Data.List.Nodup
import Wiring.Proofs.Code.Emitted
import Wiring.Proofs.Resolution.Instances

/-!
# Names of hidden members

The hidden members of an implementation are the fields for its modules and the accessors of its
plans.  Their names are glued from names of modules and providers with underscores, which may occur
in these names as well.
-/

namespace Wiring

theorem append_cons_eq_append_cons {α : Type} {x : α} {as bs cs ds : List α}
    (h : as ++ x :: bs = cs ++ x :: ds) : (as = cs ∧ bs = ds) ∨
      (∃ rest, cs = as ++ x :: rest ∧ bs = rest ++ x :: ds) ∨
      ∃ rest, as = cs ++ x :: rest ∧ ds = rest ++ x :: bs := by
  -- The shorter front is followed by the separator, or the fronts are the same.
  rcases List.append_eq_append_iff.mp h with ⟨middle, hcs, hbs⟩ | ⟨middle, has, hds⟩
  · cases middle with
    | nil => exact Or.inl ⟨by simp [hcs], (List.cons.inj hbs).2⟩
    | cons y rest =>
        obtain ⟨rfl, hrest⟩ := List.cons.inj hbs
        exact Or.inr (Or.inl ⟨rest, hcs, hrest⟩)
  · cases middle with
    | nil => exact Or.inl ⟨by simp [has], (List.cons.inj hds).2.symm⟩
    | cons y rest =>
        obtain ⟨rfl, hrest⟩ := List.cons.inj hds
        exact Or.inr (Or.inr ⟨rest, has, hrest⟩)

theorem toList_glued (a b : String) : (a ++ "_" ++ b).toList = a.toList ++ '_' :: b.toList := by
  simp

/-- Glued names are equal if their parts are, or if the one first part goes on into the second part
of the other name. -/
theorem glued_eq_iff {a b c d : String} : a ++ "_" ++ b = c ++ "_" ++ d ↔
    (a = c ∧ b = d) ∨ (∃ rest, c = a ++ "_" ++ rest ∧ b = rest ++ "_" ++ d) ∨
      ∃ rest, a = c ++ "_" ++ rest ∧ d = rest ++ "_" ++ b := by
  constructor
  · intro h
    have hlists := congrArg String.toList h
    rw [toList_glued, toList_glued] at hlists
    simp only [← String.toList_inj, toList_glued]
    refine (append_cons_eq_append_cons hlists).imp_right (Or.imp ?_ ?_)
    · exact fun ⟨rest, hc, hb⟩ ↦ ⟨.ofList rest, by simpa using hc, by simpa using hb⟩
    · exact fun ⟨rest, ha, hd⟩ ↦ ⟨.ofList rest, by simpa using ha, by simpa using hd⟩
  · rintro (⟨rfl, rfl⟩ | ⟨rest, rfl, rfl⟩ | ⟨rest, rfl, rfl⟩)
    · rfl
    · simp only [String.append_assoc]
    · simp only [String.append_assoc]

theorem ne_glued (name rest : String) : name ≠ name ++ "_" ++ rest := by
  intro h
  have hlength := congrArg (List.length ∘ String.toList) h
  rw [Function.comp_apply, Function.comp_apply, toList_glued, List.length_append,
    List.length_cons] at hlength
  omega

theorem underscore_notMem_toString (n : ℕ) : '_' ∉ (toString n).toList := by
  rw [Nat.toString_eq_ofList_toDigits, String.toList_ofList]
  intro hmem
  have hdigit := Nat.isDigit_of_mem_toDigits (by decide) (by decide) hmem
  exact absurd hdigit (by decide)

namespace Code

/-- The names of the fields and of the methods that only the class itself may use. -/
def Class.memberNames (c : Class) : List String :=
  c.fields.map MemberField.name ++ c.hiddenMethods.map Method.name

end Code

open Code

namespace Graph

variable {graph : Graph} {id : ComponentId} {resolution : Resolution} {plan other : Plan}

/-- The name of the accessor of a plan, behind the name of the module. -/
def ownName (graph : Graph) (resolution : Resolution) : Plan → String
  | .provide _ _ provider _ _ => (graph.getProvider provider).name
  | .collect number .. => "synthetic_" ++ toString ((graph.lastNumbering resolution).idxOf number)

theorem nameIn_eq (graph : Graph) (resolution : Resolution) (plan : Plan) :
    graph.nameIn resolution plan =
      graph.moduleField plan.owner ++ "_" ++ graph.ownName resolution plan := by
  cases plan with
  | provide type owner provider arguments async => rfl
  | collect number type owner elements async =>
      have hglue : ("_synthetic_" : String) = "_" ++ "synthetic_" := rfl
      rw [nameIn, accessorName, Numbering.number_eq, ownName, hglue]
      simp only [String.append_assoc, Plan.owner]

theorem memberNames_implementation (graph : Graph) (resolution : Resolution) :
    (graph.implementation resolution).memberNames =
      resolution.modules.map graph.moduleField ++
        resolution.plans.map (graph.nameIn resolution) := by
  rw [Class.memberNames, fields_implementation, hiddenMethods_implementation, List.map_map,
    List.map_map]
  rfl

/-! ## Clashes -/

/-- The accessors of one module have names of their own, and no name of a module goes on with an
underscore from that of another one so that it meets what follows there. -/
structure NamedApart (graph : Graph) (resolution : Resolution) : Prop where
  within : ∀ plan ∈ resolution.plans, ∀ other ∈ resolution.plans, plan.owner = other.owner →
    graph.ownName resolution plan = graph.ownName resolution other → plan = other
  across : ∀ plan ∈ resolution.plans, ∀ other ∈ resolution.plans, ∀ rest,
    (graph.getModule other.owner).name = (graph.getModule plan.owner).name ++ "_" ++ rest →
      graph.ownName resolution plan ≠ rest ++ "_" ++ graph.ownName resolution other
  fields : ∀ plan ∈ resolution.plans, ∀ owner ∈ resolution.modules,
    (graph.getModule owner).name ≠
      (graph.getModule plan.owner).name ++ "_" ++ graph.ownName resolution plan

/-- A condition on the declarations: no name of a module goes on with an underscore from that of
another one, and the providers of each module have different names, none of them that of a set. -/
structure ClearNames (graph : Graph) : Prop where
  modules : ∀ owner < graph.modules.length, ∀ other < graph.modules.length, ∀ rest,
    (graph.getModule other).name ≠ (graph.getModule owner).name ++ "_" ++ rest
  providers : ∀ owner < graph.modules.length,
    ((graph.getModule owner).providers.map fun id ↦ (graph.getProvider id).name).Nodup
  synthetic : ∀ owner < graph.modules.length, ∀ id ∈ (graph.getModule owner).providers,
    ∀ number : ℕ, (graph.getProvider id).name ≠ "synthetic_" ++ toString number

theorem nodup_plans (h : graph.resolution id = .ok resolution) : resolution.plans.Nodup :=
  (shared_of_resolution h).nodup.of_map

theorem owner_lt_of_mem_plans (hbuilt : graph.Built) (h : graph.resolution id = .ok resolution) :
    ∀ plan ∈ resolution.plans, plan.owner < graph.modules.length :=
  fun _ hplan ↦ owner_lt_of_mem_walk hbuilt.closed h (mem_walk_of_mem_plans h hplan)

theorem moduleField_eq_nameIn_iff {owner : ModuleId} :
    graph.moduleField owner = graph.nameIn resolution plan ↔ (graph.getModule owner).name =
      (graph.getModule plan.owner).name ++ "_" ++ graph.ownName resolution plan := by
  rw [nameIn_eq, moduleField, moduleField, String.append_assoc, String.append_assoc,
    String.append_right_inj, String.append_assoc]

theorem nameIn_eq_nameIn_iff :
    graph.nameIn resolution plan = graph.nameIn resolution other ↔
      (graph.getModule plan.owner).name ++ "_" ++ graph.ownName resolution plan =
        (graph.getModule other.owner).name ++ "_" ++ graph.ownName resolution other := by
  rw [nameIn_eq, nameIn_eq, moduleField, moduleField]
  simp only [String.append_assoc, String.append_right_inj]

theorem nodup_moduleFields (hbuilt : graph.Built) (h : graph.resolution id = .ok resolution) :
    (resolution.modules.map graph.moduleField).Nodup := by
  have hlt := lt_of_mem_modules hbuilt.closed h
  refine (nodup_modules h).map_on fun owner howner other hother ↦ ?_
  exact moduleField_inj hbuilt (hlt owner howner) (hlt other hother)

/-- Both say the same: different accessors have different names, and none has that of a field. -/
theorem nodup_memberNames_iff (hbuilt : graph.Built) (h : graph.resolution id = .ok resolution) :
    (graph.implementation resolution).memberNames.Nodup ↔
      (∀ plan ∈ resolution.plans, ∀ other ∈ resolution.plans,
        graph.nameIn resolution plan = graph.nameIn resolution other → plan = other) ∧
      ∀ plan ∈ resolution.plans, ∀ owner ∈ resolution.modules,
        graph.moduleField owner ≠ graph.nameIn resolution plan := by
  rw [memberNames_implementation, List.nodup_append, and_iff_right (nodup_moduleFields hbuilt h),
    List.nodup_map_iff_inj_on (nodup_plans h)]
  refine and_congr_right fun _ ↦ ?_
  rw [List.forall_mem_map]
  simp only [List.forall_mem_map]
  exact ⟨fun hne plan hplan owner howner ↦ hne owner howner plan hplan,
    fun hne owner howner plan hplan ↦ hne plan hplan owner howner⟩

theorem namedApart_iff (hbuilt : graph.Built) (h : graph.resolution id = .ok resolution) :
    (graph.implementation resolution).memberNames.Nodup ↔ graph.NamedApart resolution := by
  rw [nodup_memberNames_iff hbuilt h]
  constructor
  · rintro ⟨haccessors, hfields⟩
    refine ⟨fun plan hplan other hother howner hown ↦ ?_,
      fun plan hplan other hother rest hname hown ↦ ?_, fun plan hplan owner howner hname ↦ ?_⟩
    · exact haccessors plan hplan other hother (by rw [nameIn_eq, nameIn_eq, howner, hown])
    · obtain rfl := haccessors plan hplan other hother
        (nameIn_eq_nameIn_iff.mpr (glued_eq_iff.mpr (Or.inr (Or.inl ⟨rest, hname, hown⟩))))
      exact ne_glued _ _ hname
    · exact hfields plan hplan owner howner (moduleField_eq_nameIn_iff.mpr hname)
  · intro hapart
    refine ⟨fun plan hplan other hother hname ↦ ?_, fun plan hplan owner howner hname ↦ ?_⟩
    · rcases glued_eq_iff.mp (nameIn_eq_nameIn_iff.mp hname) with ⟨howner, hown⟩ |
        ⟨rest, hmodule, hown⟩ | ⟨rest, hmodule, hown⟩
      · have hlt := owner_lt_of_mem_plans hbuilt h
        exact hapart.within plan hplan other hother
          (hbuilt.eq_of_name_eq (hlt plan hplan) (hlt other hother) howner) hown
      · exact (hapart.across plan hplan other hother rest hmodule hown).elim
      · exact (hapart.across other hother plan hplan rest hmodule hown).elim
    · exact hapart.fields plan hplan owner howner (moduleField_eq_nameIn_iff.mp hname)

theorem mem_lastNumbering (hplan : plan ∈ resolution.plans) {number : SetId}
    (hkey : plan.key = .collect number) : number ∈ graph.lastNumbering resolution := by
  have hgrown : (Numbering.each graph.accessor resolution.plans
      (graph.overrides resolution.resolvers []).2).2 <+: graph.lastNumbering resolution := by
    rw [← accessors_eq_each]
    exact List.prefix_rfl
  have hlast := Numbering.prefix_of_mem_each graph.settles_accessor hplan hgrown
  cases plan with
  | provide => exact PlanKey.noConfusion hkey
  | collect id type owner elements async =>
      obtain rfl := PlanKey.collect.inj hkey
      have hvalues := (graph.settles_accessorValues elements).grows
        (Numbering.number (graph.lastNumbering resolution) id).2
      exact (hvalues.trans hlast).subset (Numbering.mem_number _ id)

theorem ownName_of_provide {owner : ModuleId} {provider : ProviderId}
    (hkey : plan.key = .provide owner provider) :
    graph.ownName resolution plan = (graph.getProvider provider).name := by
  cases plan with
  | provide type _ _ arguments async =>
      obtain ⟨rfl, rfl⟩ := PlanKey.provide.inj hkey
      rfl
  | collect => exact PlanKey.noConfusion hkey

theorem ownName_of_collect {number : SetId} (hkey : plan.key = .collect number) :
    graph.ownName resolution plan =
      "synthetic_" ++ toString ((graph.lastNumbering resolution).idxOf number) := by
  cases plan with
  | provide => exact PlanKey.noConfusion hkey
  | collect id type owner elements async =>
      obtain rfl := PlanKey.collect.inj hkey
      rfl

theorem eq_of_key_eq (h : graph.resolution id = .ok resolution) (hplan : plan ∈ resolution.plans)
    (hother : other ∈ resolution.plans) (hkey : plan.key = other.key) : plan = other :=
  List.inj_on_of_nodup_map (shared_of_resolution h).nodup hplan hother hkey

/-- A number holds no underscore, so it is what stands behind the last one. -/
theorem eq_of_nameIn_eq (h : graph.resolution id = .ok resolution) (hplan : plan ∈ resolution.plans)
    (hother : other ∈ resolution.plans) {number another : SetId}
    (hkey : plan.key = .collect number) (hotherKey : other.key = .collect another)
    (hname : graph.nameIn resolution plan = graph.nameIn resolution other) : plan = other := by
  have hsplit : ∀ (front : String) (n : ℕ), front ++ "_" ++ ("synthetic_" ++ toString n) =
      (front ++ "_synthetic") ++ "_" ++ toString n := by
    intro front n
    rw [← String.toList_inj]
    simp
  rw [nameIn_eq, nameIn_eq, ownName_of_collect hkey, ownName_of_collect hotherKey, hsplit,
    hsplit] at hname
  have hnumbers : ∀ (n : ℕ) (rest : String) (m : ℕ), toString n ≠ rest ++ "_" ++ toString m := by
    intro n rest m heq
    refine underscore_notMem_toString n ?_
    rw [heq, toList_glued]
    simp
  rcases glued_eq_iff.mp hname with ⟨-, hsame⟩ | ⟨rest, -, heq⟩ | ⟨rest, -, heq⟩
  · have hindex := Nat.repr_injective hsame
    have hid := (List.idxOf_inj (mem_lastNumbering hplan hkey)).mp hindex
    exact eq_of_key_eq h hplan hother (by rw [hkey, hotherKey, hid])
  · exact (hnumbers _ _ _ heq).elim
  · exact (hnumbers _ _ _ heq).elim

namespace ClearNames

theorem ownName_ne (hclear : graph.ClearNames) (hbuilt : graph.Built)
    (h : graph.resolution id = .ok resolution) (hplan : plan ∈ resolution.plans)
    {owner : ModuleId} {provider : ProviderId} {number : SetId}
    (hkey : plan.key = .provide owner provider) (hotherKey : other.key = .collect number) :
    graph.ownName resolution plan ≠ graph.ownName resolution other := by
  obtain ⟨hdeclared, rfl⟩ := declared_of_mem_walk h (mem_walk_of_mem_plans h hplan) hkey
  rw [ownName_of_provide hkey, ownName_of_collect hotherKey]
  exact hclear.synthetic _ (owner_lt_of_mem_plans hbuilt h plan hplan) provider hdeclared _

theorem eq_of_ownName_eq (hclear : graph.ClearNames) (hbuilt : graph.Built)
    (h : graph.resolution id = .ok resolution) (hplan : plan ∈ resolution.plans)
    (hother : other ∈ resolution.plans) {owner another : ModuleId} {provider second : ProviderId}
    (hkey : plan.key = .provide owner provider) (hotherKey : other.key = .provide another second)
    (howner : plan.owner = other.owner)
    (hown : graph.ownName resolution plan = graph.ownName resolution other) : plan = other := by
  obtain ⟨hdeclared, rfl⟩ := declared_of_mem_walk h (mem_walk_of_mem_plans h hplan) hkey
  obtain ⟨hsecond, rfl⟩ := declared_of_mem_walk h (mem_walk_of_mem_plans h hother) hotherKey
  rw [ownName_of_provide hkey, ownName_of_provide hotherKey] at hown
  have hnames := hclear.providers plan.owner (owner_lt_of_mem_plans hbuilt h plan hplan)
  have hsame : provider = second :=
    List.inj_on_of_nodup_map hnames hdeclared (howner ▸ hsecond) hown
  exact eq_of_key_eq h hplan hother (by rw [hkey, hotherKey, howner, hsame])

theorem namedApart (hclear : graph.ClearNames) (hbuilt : graph.Built)
    (h : graph.resolution id = .ok resolution) : graph.NamedApart resolution where
  within := by
    intro plan hplan other hother howner hown
    cases hkey : plan.key with
    | provide module provider =>
        cases hotherKey : other.key with
        | provide another second =>
            exact hclear.eq_of_ownName_eq hbuilt h hplan hother hkey hotherKey howner hown
        | collect number => exact (hclear.ownName_ne hbuilt h hplan hkey hotherKey hown).elim
    | collect number =>
        cases hotherKey : other.key with
        | provide module provider =>
            exact (hclear.ownName_ne hbuilt h hother hotherKey hkey hown.symm).elim
        | collect another =>
            refine eq_of_nameIn_eq h hplan hother hkey hotherKey ?_
            rw [nameIn_eq, nameIn_eq, howner, hown]
  across := by
    intro plan hplan other hother rest hname
    exact (hclear.modules _ (owner_lt_of_mem_plans hbuilt h plan hplan) _
      (owner_lt_of_mem_plans hbuilt h other hother) rest hname).elim
  fields := by
    intro plan hplan owner howner
    exact hclear.modules _ (owner_lt_of_mem_plans hbuilt h plan hplan) owner
      (lt_of_mem_modules hbuilt.closed h owner howner) _

end ClearNames

/-- The fields of an implementation have different names, and so have the accessors of its sets.
All hidden members have different names exactly when the names of modules and providers keep them
apart.  Where no name of a module goes on from another one with an underscore, and the providers of
a module have different names that no set takes, they do. -/
theorem memberNames_nodup_iff (hbuilt : graph.Built) (h : graph.resolution id = .ok resolution) :
    ((graph.implementation resolution).fields.map MemberField.name).Nodup ∧
    (∀ plan ∈ resolution.plans, ∀ other ∈ resolution.plans, ∀ number another,
      plan.key = .collect number → other.key = .collect another →
      graph.nameIn resolution plan = graph.nameIn resolution other → plan = other) ∧
    ((graph.implementation resolution).memberNames.Nodup ↔ graph.NamedApart resolution) ∧
    (graph.ClearNames → (graph.implementation resolution).memberNames.Nodup) := by
  have hiff := namedApart_iff hbuilt h
  refine ⟨?_, fun plan hplan other hother number another ↦ eq_of_nameIn_eq h hplan hother, hiff,
    fun hclear ↦ hiff.mpr (hclear.namedApart hbuilt h)⟩
  rw [fields_implementation, List.map_map]
  exact nodup_moduleFields hbuilt h

theorem twoSources_memberNames : twoSources.Built ∧
    twoSources.resolution 0 = .ok twoSourcesResolution ∧ twoSources.ClearNames ∧
    (twoSources.implementation twoSourcesResolution).memberNames.Nodup := by
  have hmodules : ∀ owner < 3, '_' ∉ (twoSources.getModule owner).name.toList := by decide
  have hproviders : ∀ owner < 3, ∀ id ∈ (twoSources.getModule owner).providers,
      '_' ∉ (twoSources.getProvider id).name.toList := by decide
  have hclear : twoSources.ClearNames := by
    refine ⟨fun owner _ other hother rest hname ↦ hmodules other hother ?_, by decide,
      fun owner howner id hid number hname ↦ hproviders owner howner id hid ?_⟩
    · rw [hname, toList_glued]
      simp
    · rw [hname]
      simp
  obtain ⟨-, -, -, hnodup⟩ := memberNames_nodup_iff twoSources_built twoSources_resolution
  exact ⟨twoSources_built, twoSources_resolution, hclear, hnodup hclear⟩

/-- A module whose name goes on from that of another one with the name of a provider there, and
which has a provider whose name goes on from there. -/
def cacheClash : Graph where
  types := (((TypeTable.empty.intern (.nominal "Cache")).2.intern (.nominal "Entry")).2.intern
    (.nominal "Value")).2
  modules := [⟨"Root", ⟨"root.ts"⟩, [], [1, 2], []⟩, ⟨"Data", ⟨"data.ts"⟩, [0, 1], [], []⟩,
    ⟨"Data_cache", ⟨"data_cache.ts"⟩, [2], [], []⟩]
  providers := [⟨"cache", 1, [], 0, false⟩, ⟨"cache_get", 1, [], 1, false⟩,
    ⟨"get", 2, [], 2, false⟩]
  components := [⟨"App", ⟨"app.ts"⟩, 0, [⟨"cache", 0⟩, ⟨"entry", 1⟩, ⟨"value", 2⟩]⟩]

theorem cacheClash_built : cacheClash.Built := by
  have htypes := ((Built.empty.intern (.nominal "Cache") (by decide)).intern (.nominal "Entry")
    (by decide)).intern (.nominal "Value") (by decide)
  have hmodules := ((htypes.addModule "Root" ⟨"root.ts"⟩ rfl).addModule "Data" ⟨"data.ts"⟩
    rfl).addModule "Data_cache" ⟨"data_cache.ts"⟩ rfl
  have hincludes := (hmodules.addInclude 0 1 (by decide) (by decide)).addInclude 0 2 (by decide)
    (by decide)
  have hdata := (hincludes.addProvider 1 "cache" [] 0 false (by decide) (by decide)
    (by decide)).addProvider 1 "cache_get" [] 1 false (by decide) (by decide) (by decide)
  have hcache := hdata.addProvider 2 "get" [] 2 false (by decide) (by decide) (by decide)
  have happ := hcache.addComponent "App" ⟨"app.ts"⟩ 0 (by decide) rfl
  exact ((happ.addResolver 0 "cache" 0 (by decide) (by decide)).addResolver 0 "entry" 1 (by decide)
    (by decide)).addResolver 0 "value" 2 (by decide) (by decide)

def cacheClashResolution : Resolution :=
  let cache : Plan := .provide 0 1 0 [] false
  let entry : Plan := .provide 1 1 1 [] false
  let value : Plan := .provide 2 2 2 [] false
  { component := 0
    resolvers := [⟨"cache", cache⟩, ⟨"entry", entry⟩, ⟨"value", value⟩]
    modules := [1, 2]
    plans := [cache, entry, value] }

/-- An accessor has the name of a field, and two accessors of different providers have one name. -/
theorem cacheClash_memberNames : cacheClash.Built ∧
    cacheClash.resolution 0 = .ok cacheClashResolution ∧
    cacheClashResolution.plans.map Plan.key = [.provide 1 0, .provide 1 1, .provide 2 2] ∧
    (cacheClash.implementation cacheClashResolution).fields.map MemberField.name =
      ["_Data", "_Data_cache"] ∧
    (cacheClash.implementation cacheClashResolution).hiddenMethods.map Method.name =
      ["_Data_cache", "_Data_cache_get", "_Data_cache_get"] ∧
    ¬ (cacheClash.implementation cacheClashResolution).memberNames.Nodup := by
  have hfields : (cacheClash.implementation cacheClashResolution).fields.map MemberField.name =
      ["_Data", "_Data_cache"] := by cbv
  have hmethods : (cacheClash.implementation cacheClashResolution).hiddenMethods.map Method.name =
      ["_Data_cache", "_Data_cache_get", "_Data_cache_get"] := by cbv
  refine ⟨cacheClash_built, by cbv, rfl, hfields, hmethods, ?_⟩
  rw [Class.memberNames, hfields, hmethods]
  decide

end Graph

end Wiring
