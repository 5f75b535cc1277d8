import Wiring.Proofs.Graph.Built
import Wiring.Proofs.Lists
import Wiring.Proofs.Search.Orderly

/-!
# The course of a request

A request makes requests of its own, one after the other, and goes on as they are answered.  Its
course is all that it does with these requests left open, so nothing is said about who answers
them.  When a lookup does, the course is what the rules do with this lookup.
-/

namespace Wiring

/-- What is wanted, and the state of the search when it is wanted. -/
structure Request where
  demand : Demand
  type : TypeId
  state : Search

/-- The guarded pairs under which a request applies the rules.  It applies none outside all modules,
or when its own pair is guarded. -/
def Request.guard? (request : Request) : Option (List (ModuleId × TypeId)) :=
  match request.state.stack with
  | [] => none
  | owner :: _ =>
    if request.state.guarded.contains (owner, request.type) then none
    else some ((owner, request.type) :: request.state.guarded)

theorem Request.guard?_eq_some_iff {request : Request} {guard : List (ModuleId × TypeId)} :
    request.guard? = some guard ↔ ∃ owner enclosing, request.state.stack = owner :: enclosing ∧
      (owner, request.type) ∉ request.state.guarded ∧
      guard = (owner, request.type) :: request.state.guarded := by
  rw [guard?]
  cases request.state.stack with
  | nil => simp
  | cons owner enclosing =>
      dsimp only
      split_ifs with hguarded
      · simp_all
      · simp_all [eq_comm]

abbrev Answer := List Plan × Search

inductive Course (α : Type) where
  | done (result : α)
  | ask (request : Request) (next : Answer → Course α)

/-- A part of a search that leaves its requests open. -/
abbrev Part := Search → Course Answer

namespace Course

variable {α β : Type}

def bind : Course α → (α → Course β) → Course β
  | done result, rest => rest result
  | ask request next, rest => ask request fun answer ↦ (next answer).bind rest

/-- The end of the course when the lookup answers the requests. -/
def run (lookup : Lookup) : Course α → α
  | done result => result
  | ask request next => (next (lookup request.demand request.type request.state)).run lookup

@[simp] theorem run_bind (lookup : Lookup) (course : Course α) (rest : α → Course β) :
    (course.bind rest).run lookup = (rest (course.run lookup)).run lookup := by
  induction course with
  | done result => rfl
  | ask request next ih => exact ih _

/-- Only allowed requests are made and the end is as wanted, as long as every answer leaves the
context of its request as it was. -/
inductive Keeps (allowed : Request → Prop) (wanted : α → Prop) : Course α → Prop where
  | done {result : α} (ended : wanted result) : Keeps allowed wanted (done result)
  | ask {request : Request} {next : Answer → Course α} (made : allowed request)
      (goesOn : ∀ answer : Answer, answer.2.SameContext request.state →
        Keeps allowed wanted (next answer)) :
      Keeps allowed wanted (ask request next)

theorem Keeps.bind {allowed : Request → Prop} {middle : α → Prop} {wanted : β → Prop}
    {course : Course α} {rest : α → Course β} (h : Keeps allowed middle course)
    (hrest : ∀ result, middle result → Keeps allowed wanted (rest result)) :
    Keeps allowed wanted (course.bind rest) := by
  induction h with
  | done ended => exact hrest _ ended
  | ask made _ ih => exact .ask made ih

end Course

namespace Part

def run (lookup : Lookup) (part : Part) : Probe := fun state ↦ (part state).run lookup

/-- Started in a state, the part makes allowed requests only and leaves the context as it was. -/
def Keeps (allowed : Request → Prop) (part : Part) (state : Search) : Prop :=
  (part state).Keeps allowed fun answer ↦ answer.2.SameContext state

def inOrder (demand : Demand) : List Part → Part
  | [], state => .done ([], state)
  | part :: parts, state =>
    (part state).bind fun found ↦
      if demand.isMet found.1 then .done found
      else (inOrder demand parts found.2).bind fun more ↦ .done (found.1 ++ more.1, more.2)

theorem run_inOrder (lookup : Lookup) (demand : Demand) (parts : List Part) :
    (inOrder demand parts).run lookup = Wiring.inOrder demand (parts.map (run lookup)) := by
  funext state
  induction parts generalizing state with
  | nil => rfl
  | cons part parts ih =>
      rw [List.map_cons, inOrder_cons, ← ih, run, inOrder, Course.run_bind, run]
      split_ifs
      · rfl
      · exact Course.run_bind ..

theorem keeps_inOrder {allowed : Request → Prop} {demand : Demand} {parts : List Part}
    {state : Search} (h : ∀ part ∈ parts, ∀ start : Search, start.SameContext state →
      part.Keeps allowed start) : (inOrder demand parts).Keeps allowed state := by
  induction parts generalizing state with
  | nil => exact .done (.refl state)
  | cons part parts ih =>
      refine (h part List.mem_cons_self state (.refl state)).bind fun found hfound ↦ ?_
      split_ifs
      · exact .done hfound
      · have hrest : (inOrder demand parts).Keeps allowed found.2 :=
          ih fun other hother start hstart ↦
            h other (List.mem_cons_of_mem _ hother) start (hstart.trans hfound)
        exact hrest.bind fun more hmore ↦ .done (hmore.trans hfound)

end Part

namespace Graph

def chooseArgumentsPart : List TypeId → Search → Course (Option (List Plan) × Search)
  | [], state => .done (some [], state)
  | type :: types, state =>
    .ask ⟨.first, type, state⟩ fun (found, state) ↦
      match found.head? with
      | none => .done (none, state)
      | some plan =>
        (chooseArgumentsPart types state).bind fun (rest, state) ↦
          .done (rest.map (plan :: ·), state)

def providerPart (graph : Graph) (type : TypeId) (owner : ModuleId) (id : ProviderId) : Part :=
  fun state ↦
  let provider := graph.getProvider id
  if graph.serves provider.returns type then
    (chooseArgumentsPart provider.parameters state).bind fun (chosen, state) ↦
      match chosen with
      | none => .done ([], state)
      | some arguments =>
        .done ([.provide type owner id arguments
          (provider.deferred || arguments.any Plan.isAsync)], state)
  else .done ([], state)

def setPart (graph : Graph) (type : TypeId) (owner : ModuleId) : Part := fun state ↦
  match graph.types.setElement? type with
  | none => .done ([], state)
  | some element =>
    let id := state.nextSet
    .ask ⟨.every, element, { state with nextSet := id + 1 }⟩ fun (elements, state) ↦
      .done ([.collect id type owner elements (elements.any Plan.isAsync)], state)

def includePart (demand : Demand) (type : TypeId) (included : ModuleId) : Part := fun state ↦
  .ask ⟨demand, type, { state with stack := included :: state.stack }⟩ fun (found, state) ↦
    .done (found, { state with stack := state.stack.tail })

def enclosingPart (graph : Graph) (demand : Demand) (type : TypeId) (owner : ModuleId) : Part :=
  fun state ↦
  if (graph.getModule owner).requires.contains type then
    match state.stack with
    | [] => .done ([], state)
    | current :: enclosing =>
      .ask ⟨demand, type, { state with stack := enclosing }⟩ fun (found, state) ↦
        .done (found, { state with stack := current :: state.stack })
  else .done ([], state)

def parts (graph : Graph) (demand : Demand) (type : TypeId) (owner : ModuleId) : List Part :=
  (graph.getModule owner).providers.map (graph.providerPart type owner) ++
    [graph.setPart type owner] ++
    (graph.getModule owner).includes.map (includePart demand type) ++
    [graph.enclosingPart demand type owner]

def course (graph : Graph) (request : Request) : Course Answer :=
  match request.state.stack with
  | [] => .done ([], request.state)
  | owner :: _ =>
    if request.state.guarded.contains (owner, request.type) then .done ([], request.state)
    else
      (Part.inOrder request.demand (graph.parts request.demand request.type owner)
        (guarding request.state owner request.type)).bind fun (found, state) ↦
          .done (found, { state with guarded := state.guarded.erase (owner, request.type) })

variable {graph : Graph} {outer inner request : Request}

/-! ## A lookup that answers the requests -/

theorem run_chooseArgumentsPart (lookup : Lookup) (types : List TypeId) (state : Search) :
    (chooseArgumentsPart types state).run lookup = chooseArguments lookup types state := by
  induction types generalizing state with
  | nil => rfl
  | cons type types ih =>
      rw [chooseArguments_cons, chooseArgumentsPart, Course.run]
      dsimp only
      cases (lookup .first type state).1.head? with
      | none => rfl
      | some plan =>
          dsimp only
          rw [Course.run_bind, ih]
          rfl

theorem run_providerPart (lookup : Lookup) (type : TypeId) (owner : ModuleId) (id : ProviderId) :
    (graph.providerPart type owner id).run lookup = graph.providerProbe lookup type owner id := by
  funext state
  simp only [Part.run, providerPart, providerProbe]
  split_ifs
  · rw [Course.run_bind, run_chooseArgumentsPart]
    cases (chooseArguments lookup (graph.getProvider id).parameters state).1 <;> rfl
  · rfl

theorem run_setPart (lookup : Lookup) (type : TypeId) (owner : ModuleId) :
    (graph.setPart type owner).run lookup = graph.setProbe lookup type owner := by
  funext state
  simp only [Part.run, setPart, setProbe]
  cases graph.types.setElement? type <;> rfl

theorem run_enclosingPart (lookup : Lookup) (demand : Demand) (type : TypeId) (owner : ModuleId) :
    (graph.enclosingPart demand type owner).run lookup =
      graph.enclosingProbe lookup demand type owner := by
  funext state
  simp only [Part.run, enclosingPart, enclosingProbe]
  split_ifs
  · cases state.stack <;> rfl
  · rfl

theorem map_run_parts (lookup : Lookup) (demand : Demand) (type : TypeId) (owner : ModuleId) :
    (graph.parts demand type owner).map (Part.run lookup) =
      graph.rules lookup demand type owner := by
  have hproviders : Part.run lookup ∘ graph.providerPart type owner =
      graph.providerProbe lookup type owner :=
    funext (run_providerPart lookup type owner)
  have hincludes : Part.run lookup ∘ includePart demand type = includeProbe lookup demand type :=
    rfl
  simp only [parts, rules, List.map_append, List.map_map, List.map_singleton, hproviders,
    hincludes, run_setPart, run_enclosingPart]

/-- A lookup that answers the requests makes the course one step of the search. -/
theorem run_course (lookup : Lookup) (request : Request) :
    (graph.course request).run lookup =
      graph.lookupStep lookup request.demand request.type request.state := by
  obtain ⟨demand, type, stack, guarded, nextSet⟩ := request
  cases stack with
  | nil => rfl
  | cons owner enclosing =>
      have hrules := congrFun (Part.run_inOrder lookup demand (graph.parts demand type owner))
        ⟨owner :: enclosing, (owner, type) :: guarded, nextSet⟩
      rw [map_run_parts, Part.run] at hrules
      simp only [course, lookupStep]
      split_ifs
      · rfl
      · rw [Course.run_bind, guarding, hrules]
        rfl

theorem course_of_guard?_eq_none (h : request.guard? = none) :
    graph.course request = .done ([], request.state) := by
  rw [Request.guard?] at h
  rw [course]
  split
  · rfl
  · simp_all

theorem course_of_guard?_eq_some {guard : List (ModuleId × TypeId)}
    (h : request.guard? = some guard) :
    ∃ owner, guard = (owner, request.type) :: request.state.guarded ∧
      graph.course request =
        (Part.inOrder request.demand (graph.parts request.demand request.type owner)
          { request.state with guarded := guard }).bind fun found ↦
            .done (found.1,
              { found.2 with guarded := found.2.guarded.erase (owner, request.type) }) := by
  obtain ⟨owner, enclosing, hstack, hfresh, rfl⟩ := Request.guard?_eq_some_iff.mp h
  refine ⟨owner, rfl, ?_⟩
  simp [course, hstack, hfresh, guarding]

/-- The request is one for a type of the graph inside modules of the graph, under different guarded
pairs of the graph. -/
structure Admits (graph : Graph) (request : Request) : Prop where
  type_lt : request.type < graph.types.size
  stack_lt : ∀ id ∈ request.state.stack, id < graph.modules.length
  guarded : DistinctBelow graph.modules.length graph.types.size request.state.guarded

/-- The one request is made under the guard of the other one. -/
structure Nests (graph : Graph) (outer inner : Request) : Prop where
  guard : outer.guard? = some inner.state.guarded
  admits : graph.Admits inner

theorem Admits.guard (h : graph.Admits request) {guard : List (ModuleId × TypeId)}
    (hguard : request.guard? = some guard) :
    DistinctBelow graph.modules.length graph.types.size guard := by
  obtain ⟨owner, enclosing, hstack, hfresh, rfl⟩ := Request.guard?_eq_some_iff.mp hguard
  have howner : owner ∈ request.state.stack := hstack ▸ List.mem_cons_self
  exact h.guarded.cons (h.stack_lt owner howner) h.type_lt hfresh

theorem keeps_chooseArgumentsPart {allowed : Request → Prop} {types : List TypeId} {state : Search}
    (h : ∀ type ∈ types, ∀ start : Search, start.SameContext state →
      allowed ⟨.first, type, start⟩) :
    (chooseArgumentsPart types state).Keeps allowed fun chosen ↦ chosen.2.SameContext state := by
  induction types generalizing state with
  | nil => exact .done (.refl state)
  | cons type types ih =>
      refine .ask (h type List.mem_cons_self state (.refl state)) fun answer hanswer ↦ ?_
      dsimp only
      split
      · exact .done hanswer
      · have hrest := ih fun other hother start hstart ↦
          h other (List.mem_cons_of_mem _ hother) start (hstart.trans hanswer)
        exact hrest.bind fun rest hrest ↦ .done (hrest.trans hanswer)

section Rules

variable {guard : List (ModuleId × TypeId)} {state : Search} (hclosed : graph.Closed)
  (houter : graph.Admits outer) (hguard : outer.guard? = some guard)
  (hstate : state.SameContext { outer.state with guarded := guard })

include houter hguard hstate

theorem nests_of_sameContext (demand : Demand) {type : TypeId} (htype : type < graph.types.size)
    {stack : List ModuleId} (hmodules : ∀ id ∈ stack, id < graph.modules.length) (served : SetId) :
    graph.Nests outer ⟨demand, type, ⟨stack, state.guarded, served⟩⟩ := by
  have hsame : state.guarded = guard := hstate.2
  exact ⟨hsame ▸ hguard, htype, hmodules, hsame ▸ houter.guard hguard⟩

omit hguard in
theorem lt_length_of_sameContext : ∀ id ∈ state.stack, id < graph.modules.length := by
  have hsame : state.stack = outer.state.stack := hstate.1
  exact hsame ▸ houter.stack_lt

include hclosed

theorem keeps_providerPart (owner : ModuleId) (id : ProviderId) :
    (graph.providerPart outer.type owner id).Keeps (graph.Nests outer) state := by
  have hchoose : (chooseArgumentsPart (graph.getProvider id).parameters state).Keeps
      (graph.Nests outer) fun chosen ↦ chosen.2.SameContext state := by
    apply keeps_chooseArgumentsPart
    intro type htype start hstart
    have hcontext := hstart.trans hstate
    exact nests_of_sameContext houter hguard hcontext .first
      (hclosed.parameters_lt id type htype) (lt_length_of_sameContext houter hcontext) _
  simp only [Part.Keeps, providerPart]
  split_ifs
  · apply hchoose.bind
    rintro ⟨chosen, after⟩ hafter
    cases chosen with
    | none => exact .done hafter
    | some arguments => exact .done hafter
  · exact .done (.refl state)

theorem keeps_setPart (owner : ModuleId) :
    (graph.setPart outer.type owner).Keeps (graph.Nests outer) state := by
  rw [Part.Keeps, setPart]
  split
  · exact .done (.refl state)
  · next element helement =>
      have hlt : element < graph.types.size := hclosed.types.partsDescend.argumentOf?_lt helement
      have hnests := nests_of_sameContext houter hguard hstate .every hlt
        (lt_length_of_sameContext houter hstate) (state.nextSet + 1)
      exact .ask hnests fun answer hanswer ↦ .done hanswer

theorem keeps_includePart {owner included : ModuleId}
    (visible : included ∈ (graph.getModule owner).includes) :
    (includePart outer.demand outer.type included).Keeps (graph.Nests outer) state := by
  have hinside : ∀ id ∈ included :: state.stack, id < graph.modules.length :=
    List.forall_mem_cons.mpr ⟨hclosed.includes_lt owner included visible,
      lt_length_of_sameContext houter hstate⟩
  have hnests := nests_of_sameContext houter hguard hstate outer.demand houter.type_lt hinside
    state.nextSet
  exact .ask hnests fun answer hanswer ↦ .done ⟨congrArg List.tail hanswer.1, hanswer.2⟩

omit hclosed in
theorem keeps_enclosingPart (owner : ModuleId) :
    (graph.enclosingPart outer.demand outer.type owner).Keeps (graph.Nests outer) state := by
  have hmodules := lt_length_of_sameContext houter hstate
  rw [Part.Keeps, enclosingPart]
  split_ifs
  · split
    · exact .done (.refl state)
    · next current enclosing hcurrent =>
        have houtside : ∀ id ∈ enclosing, id < graph.modules.length := fun id hid ↦
          hmodules id (hcurrent ▸ List.mem_cons_of_mem current hid)
        have hnests := nests_of_sameContext houter hguard hstate outer.demand houter.type_lt
          houtside state.nextSet
        refine .ask hnests fun answer hanswer ↦ .done ⟨?_, hanswer.2⟩
        exact (congrArg (current :: ·) hanswer.1).trans hcurrent.symm
  · exact .done (.refl state)

end Rules

/-- What a request does from here on: it makes its own requests under one more guarded pair, and
leaves the context as it was, whatever the answers, as long as they leave theirs as it was. -/
def Obeys (graph : Graph) (request : Request) (course : Course Answer) : Prop :=
  course.Keeps (graph.Nests request) fun answer ↦ answer.2.SameContext request.state

theorem obeys_course (hclosed : graph.Closed) (h : graph.Admits request) :
    graph.Obeys request (graph.course request) := by
  cases hguard : request.guard? with
  | none =>
      rw [course_of_guard?_eq_none hguard]
      exact .done (.refl _)
  | some guard =>
      obtain ⟨owner, rfl, hcourse⟩ := course_of_guard?_eq_some hguard
      have hparts : ∀ part ∈ graph.parts request.demand request.type owner, ∀ start : Search,
          start.SameContext (guarding request.state owner request.type) →
          part.Keeps (graph.Nests request) start := by
        intro part hpart start hstart
        simp only [parts, List.mem_append, List.mem_map, List.mem_singleton, or_assoc] at hpart
        obtain ⟨id, -, rfl⟩ | rfl | ⟨included, visible, rfl⟩ | rfl := hpart
        · exact keeps_providerPart hclosed h hguard hstart owner id
        · exact keeps_setPart hclosed h hguard hstart owner
        · exact keeps_includePart hclosed h hguard hstart visible
        · exact keeps_enclosingPart h hguard hstart owner
      rw [hcourse]
      apply (Part.keeps_inOrder hparts).bind
      intro answer hanswer
      refine .done ⟨hanswer.1, ?_⟩
      have herase := congrArg (·.erase (owner, request.type)) hanswer.2
      simpa [guarding] using herase

end Graph

end Wiring
