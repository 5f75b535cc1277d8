import Wiring.Plan.Search
import Wiring.Proofs.Lists
import Wiring.Proofs.Types.Equivalent
import Wiring.Proofs.Types.Normal

/-!
# Classes inside other types

The same type around two different classes.  As long as there are only arguments of containers
around them the classes keep the types apart.  Below an array, a tuple or an object type the parts
are compared by assignability, and there two classes are the same if their fields are.
-/

namespace Wiring

/-- One level around an open place: the other parts of a descriptor. -/
inductive Layer where
  | array
  | tuple (before after : List TypeId)
  | field (before : List Field) (name : String) (after : List Field)
  | argument (container : String) (before after : List TypeId)

namespace Layer

/-- The descriptor with a type in the open place. -/
def fill : Layer → TypeId → Descriptor
  | array, id => .array id
  | tuple before after, id => .tuple (before ++ id :: after)
  | field before name after, id => .shape (before ++ ⟨name, id⟩ :: after)
  | argument container before after, id => .generic container (before ++ id :: after)

def isArgument : Layer → Bool
  | argument .. => true
  | _ => false

theorem fill_inj {layer : Layer} {a b : TypeId} : layer.fill a = layer.fill b ↔ a = b := by
  cases layer <;> simp [fill]

theorem isRigid_fill (layer : Layer) (id : TypeId) : (layer.fill id).isRigid = false := by
  cases layer <;> rfl

end Layer

namespace TypeTable

variable {table : TypeTable} {a b x y : TypeId} {layer : Layer} {layers : List Layer}

/-- The second type consists of the layers, the outermost first, around the first one. -/
def Encloses (table : TypeTable) : List Layer → TypeId → TypeId → Prop
  | [], hole, whole => whole = hole
  | layer :: layers, hole, whole =>
    ∃ part, table.get whole = layer.fill part ∧ table.Encloses layers hole part

theorem find?_append_cons (hnormal : table.Normal) {before after : List Field} {name : String}
    (hx : table.get x = .shape (before ++ ⟨name, a⟩ :: after)) (field : Field)
    (hfield : field ∈ before ++ ⟨name, a⟩ :: after) :
    (before ++ ⟨name, a⟩ :: after).find? (·.name == field.name) = some field := by
  have hascend : (Descriptor.shape (before ++ ⟨name, a⟩ :: after)).Normal table := hx ▸ hnormal x
  exact find?_eq_some_of_nodup (List.pairwise_map.mpr (hascend.imp fun hlt ↦ hlt.ne)) hfield

theorem structural_fill (hnormal : table.Normal) (hx : table.get x = layer.fill a)
    (hy : table.get y = layer.fill b) (h : table.Structural a b) : table.Structural x y := by
  refine .of_accepts ?_
  cases layer with
  | array => exact .arrays hx hy h
  | tuple before after => exact .tuples hx hy (forall₂_append_cons Structural.refl before after h)
  | argument container before after =>
      exact .containers hx hy (forall₂_append_cons Structural.refl before after h)
  | field before name after =>
      have hsource : table.fieldsOf? (table.get x) = some (before ++ ⟨name, a⟩ :: after) := by
        rw [hx]
        rfl
      have htarget : table.fieldsOf? (table.get y) = some (before ++ ⟨name, b⟩ :: after) := by
        rw [hy]
        rfl
      refine .shapes hsource htarget fun want hwant ↦ ?_
      by_cases hsame : want ∈ before ++ ⟨name, a⟩ :: after
      · exact ⟨want, find?_append_cons hnormal hx want hsame, .refl want.type⟩
      · obtain rfl : want = ⟨name, b⟩ := by
          simp only [List.mem_append, List.mem_cons, not_or] at hwant hsame
          exact (hwant.resolve_left hsame.1).resolve_right hsame.2.2
        exact ⟨⟨name, a⟩, find?_append_cons hnormal hx ⟨name, a⟩ (by simp), h⟩

/-- What the rules say of the whole, they say of what is in the open place. -/
theorem structural_of_fill (hnormal : table.Normal) (hx : table.get x = layer.fill a)
    (hy : table.get y = layer.fill b) (h : table.Structural x y) : table.Structural a b := by
  by_cases hsame : x = y
  · obtain rfl : a = b := Layer.fill_inj.mp (hx.symm.trans (hsame ▸ hy))
    exact .refl a
  have haccepts := h.accepts
  cases layer with
  | array =>
      cases haccepts with
      | arrays source target part => simp_all [Layer.fill]
      | _ => simp_all [Layer.fill, fieldsOf?]
  | tuple before after =>
      cases haccepts with
      | tuples source target each =>
          obtain rfl := Descriptor.tuple.inj (hx.symm.trans source)
          obtain rfl := Descriptor.tuple.inj (hy.symm.trans target)
          exact of_forall₂_append_cons rfl each
      | _ => simp_all [Layer.fill, fieldsOf?]
  | argument container before after =>
      cases haccepts with
      | containers source target each =>
          obtain ⟨-, rfl⟩ := Descriptor.generic.inj (hx.symm.trans source)
          obtain ⟨-, rfl⟩ := Descriptor.generic.inj (hy.symm.trans target)
          exact of_forall₂_append_cons rfl each
      | _ => simp_all [Layer.fill, fieldsOf?]
  | field before name after =>
      cases haccepts with
      | shapes source target each =>
          rw [hx] at source
          rw [hy] at target
          obtain rfl := Option.some.inj source
          obtain rfl := Option.some.inj target
          obtain ⟨field, hfield, hpart⟩ := each ⟨name, b⟩ (by simp)
          rw [find?_append_cons hnormal hx ⟨name, a⟩ (by simp)] at hfield
          obtain rfl := Option.some.inj hfield
          exact hpart
      | _ => simp_all [Layer.fill, fieldsOf?]

theorem Encloses.structural_iff (hnormal : table.Normal) (hx : table.Encloses layers a x)
    (hy : table.Encloses layers b y) : table.Structural x y ↔ table.Structural a b := by
  induction layers generalizing x y with
  | nil =>
      obtain rfl : x = a := hx
      obtain rfl : y = b := hy
      exact Iff.rfl
  | cons layer layers ih =>
      obtain ⟨part, hget, hpart⟩ := hx
      obtain ⟨other, hother, hothers⟩ := hy
      rw [← ih hpart hothers]
      exact ⟨structural_of_fill hnormal hget hother, structural_fill hnormal hget hother⟩

theorem equivalent_argument_iff {container : String} {before after : List TypeId}
    (hx : table.get x = (Layer.argument container before after).fill a)
    (hy : table.get y = (Layer.argument container before after).fill b) :
    table.Equivalent x y ↔ table.Equivalent a b :=
  ⟨fun h ↦ of_forall₂_append_cons rfl (h.forall₂ hx hy),
    fun h ↦ .of_forall₂ hx hy (forall₂_append_cons (fun _ ↦ .same) before after h)⟩

/-- Any other layer leaves the comparison to assignability. -/
theorem equivalent_fill_iff (hlayer : layer.isArgument = false) (hx : table.get x = layer.fill a)
    (hy : table.get y = layer.fill b) :
    table.Equivalent x y ↔ table.Structural x y ∧ table.Structural y x := by
  refine ⟨fun h ↦ ⟨h.structural, h.symm.structural⟩, fun h ↦ ?_⟩
  have hapart : ∀ name items others, table.get x = .generic name items →
      table.get y ≠ .generic name others := by
    intro name items others hgeneric
    rw [hx] at hgeneric
    cases layer <;> simp_all [Layer.fill, Layer.isArgument]
  exact .mutually hapart (hx ▸ layer.isRigid_fill a) (hy ▸ layer.isRigid_fill b) h.1 h.2

theorem Encloses.equivalent_iff (hnormal : table.Normal) (hne : a ≠ b)
    (hrigid : (table.get a).isRigid = true) (hx : table.Encloses layers a x)
    (hy : table.Encloses layers b y) :
    table.Equivalent x y ↔ (∃ layer ∈ layers, layer.isArgument = false) ∧
      table.Structural a b ∧ table.Structural b a := by
  induction layers generalizing x y with
  | nil =>
      obtain rfl : x = a := hx
      obtain rfl : y = b := hy
      simp only [List.not_mem_nil, false_and, exists_false, iff_false]
      exact fun h ↦ hne (h.eq_of_isRigid hrigid)
  | cons layer layers ih =>
      have hforth := hx.structural_iff hnormal hy
      have hback := hy.structural_iff hnormal hx
      obtain ⟨part, hget, hpart⟩ := hx
      obtain ⟨other, hother, hothers⟩ := hy
      cases hlayer : layer.isArgument with
      | true =>
          cases layer with
          | argument container before after =>
              rw [equivalent_argument_iff hget hother, ih hpart hothers]
              simp [hlayer]
          | _ => simp [Layer.isArgument] at hlayer
      | false =>
          rw [equivalent_fill_iff hlayer hget hother, hforth, hback]
          simp [hlayer]

/-- Two different classes inside the same type, at any depth, keep the types apart in exactly two
cases: there is nothing around them but arguments of containers, or by their recorded fields one of
them is not assignable to the other.  Below an array, a tuple or an object type, classes without
recorded fields stand for each other. -/
theorem isEquivalent_encloses_iff (h : table.Built) {left right : String}
    (ha : table.get a = .nominal left) (hb : table.get b = .nominal right) (hne : left ≠ right)
    (hx : table.Encloses layers a x) (hy : table.Encloses layers b y) :
    table.isEquivalent x y = true ↔ (∃ layer ∈ layers, layer.isArgument = false) ∧
      table.isAssignable a b = true ∧ table.isAssignable b a = true := by
  have hab : a ≠ b := by
    rintro rfl
    exact hne (Descriptor.nominal.inj (ha.symm.trans hb))
  rw [isEquivalent_iff h, isAssignable_iff h, isAssignable_iff h]
  exact hx.equivalent_iff h.normal hab (ha ▸ rfl) hy

/-- Two classes without recorded fields and lists of them, `User[]` with the identity 2 and
`Order[]` with the identity 3. -/
def userLists : TypeTable :=
  let user := (TypeTable.empty.intern (.nominal "User")).2
  let order := (user.intern (.nominal "Order")).2
  let users := (order.intern (.array 0)).2
  (users.intern (.array 1)).2

theorem userLists_built : userLists.Built :=
  (((Built.empty.intern (.nominal "User") (by decide)).intern (.nominal "Order")
    (by decide)).intern (.array 0) (by decide)).intern (.array 1) (by decide)

theorem encloses_userLists : userLists.Encloses [.array] 0 2 ∧ userLists.Encloses [.array] 1 3 :=
  ⟨⟨0, by decide, rfl⟩, 1, by decide, rfl⟩

theorem userLists_isEquivalent_iff : userLists.Built ∧ userLists.get 0 = .nominal "User" ∧
    userLists.get 1 = .nominal "Order" ∧ "User" ≠ "Order" ∧ userLists.Encloses [.array] 0 2 ∧
    userLists.Encloses [.array] 1 3 ∧
    (userLists.isEquivalent 2 3 = true ↔
      (∃ layer ∈ [Layer.array], layer.isArgument = false) ∧
        userLists.isAssignable 0 1 = true ∧ userLists.isAssignable 1 0 = true) := by
  have huser : userLists.get 0 = .nominal "User" := by decide
  have horder : userLists.get 1 = .nominal "Order" := by decide
  obtain ⟨husers, horders⟩ := encloses_userLists
  exact ⟨userLists_built, huser, horder, by decide, husers, horders,
    isEquivalent_encloses_iff userLists_built huser horder (by decide) husers horders⟩

/-- A provider of orders serves a request for users, although the classes differ. -/
theorem orders_serve_users : userLists.Built ∧ userLists.get 0 = .nominal "User" ∧
    userLists.get 1 = .nominal "Order" ∧ userLists.Encloses [.array] 0 2 ∧
    userLists.Encloses [.array] 1 3 ∧ userLists.isEquivalent 0 1 = false ∧
    userLists.isEquivalent 2 3 = true ∧
    ∀ graph : Graph, graph.types = userLists → graph.serves 3 2 = true := by
  have hlists : userLists.isEquivalent 3 2 = true := by decide
  obtain ⟨husers, horders⟩ := encloses_userLists
  refine ⟨userLists_built, by decide, by decide, husers, horders, by decide, by decide,
    fun graph htypes ↦ ?_⟩
  rw [Graph.serves, htypes, hlists, Bool.true_or, Bool.true_or]

end TypeTable

end Wiring
