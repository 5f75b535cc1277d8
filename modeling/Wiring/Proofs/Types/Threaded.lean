import Mathlib.Data.Finset.Basic
import Wiring.Proofs.Types.Equivalent

/-!
# Comparisons that share one set

A comparison can keep the pairs of shapes under way in a single set that all its loops share, and
also the two directions of an equivalence: a pair is entered before its fields are compared and
taken out after the last of them.  Every piece of such a comparison hands the set back as it found
it, however early a loop ends.  So the answers are those of a comparison that passes the pairs down.
-/

namespace Wiring

/-- A computation that may change the pairs of shapes under way. -/
abbrev Threaded := StateT (Finset (TypeId × TypeId)) Option

namespace Threaded

/-- A pair that is under way counts as fitting.  Any other is entered, and taken out in the end. -/
def once (pair : TypeId × TypeId) (x : Threaded Bool) : Threaded Bool := do
  if pair ∈ (← get) then
    return true
  modify (insert pair)
  let answer ← x
  modify (Finset.erase · pair)
  return answer

/-- Started with the given pairs, the computation gives the answer and the same pairs. -/
def Restores (x : Threaded Bool) (underway : Finset (TypeId × TypeId)) (answer : Option Bool) :
    Prop :=
  x.run underway = answer.map fun a ↦ (a, underway)

variable {underway : Finset (TypeId × TypeId)}

theorem restores_pure (a : Bool) : Restores (pure a) underway (some a) := rfl

theorem Restores.bind {x : Threaded Bool} {f : Bool → Threaded Bool} {answer : Option Bool}
    {next : Bool → Option Bool} (hx : Restores x underway answer)
    (hf : ∀ a, Restores (f a) underway (next a)) :
    Restores (x >>= f) underway (answer.bind next) := by
  rw [Restores, StateT.run_bind, hx]
  cases answer with
  | none => rfl
  | some a => exact hf a

theorem Restores.and {x y : Threaded Bool} {first second : Bool}
    (hx : Restores x underway (some first)) (hy : Restores y underway (some second)) :
    Restores (do if ← x then y else return false) underway (some (first && second)) := by
  rw [Restores, StateT.run_bind, hx]
  cases first with
  | true => exact hy
  | false => exact restores_pure false

/-- If the set is handed back by what comes between entering a pair and taking it out, it is handed
back by the whole. -/
theorem Restores.once {pair : TypeId × TypeId} {x : Threaded Bool} {answer : Option Bool}
    (h : Restores x (insert pair underway) answer) :
    Restores (once pair x) underway (if pair ∈ underway then some true else answer) := by
  simp only [Restores] at h
  by_cases hmem : pair ∈ underway
  · simp [Restores, Threaded.once, hmem]
  -- The pair is new, so taking it out undoes entering it.
  · cases answer <;> simp [Restores, Threaded.once, hmem, h]

section Loops

variable {α : Type} {p : α → Threaded Bool} {q : α → Option Bool} {items : List α}

theorem Restores.allM (h : ∀ item, Restores (p item) underway (q item)) :
    Restores (items.allM p) underway (items.allM q) := by
  induction items with
  | nil => exact restores_pure true
  | cons item items ih =>
      rw [List.allM_cons, List.allM_cons]
      refine (h item).bind fun answer ↦ ?_
      cases answer with
      | true => exact ih
      | false => exact restores_pure false

theorem Restores.anyM (h : ∀ item, Restores (p item) underway (q item)) :
    Restores (items.anyM p) underway (items.anyM q) := by
  induction items with
  | nil => exact restores_pure false
  | cons item items ih =>
      rw [List.anyM_cons, List.anyM_cons]
      refine (h item).bind fun answer ↦ ?_
      cases answer with
      | true => exact restores_pure true
      | false => exact ih

end Loops

end Threaded

namespace TypeTable

open Threaded

/-- Whether the source has every wanted field, of an assignable type. -/
def threadedFits (table : TypeTable) (deeper : TypeId → TypeId → Threaded Bool)
    (source target : TypeId) (wanted : List Field) : Threaded Bool :=
  match table.fieldsOf? (table.get source) with
  | none => pure (!(table.get source).isNullish && wanted.isEmpty)
  | some fields => once (source, target) <| wanted.allM fun want ↦
      match fields.find? (·.name == want.name) with
      | some field => deeper field.type want.type
      | none => pure false

def threadedPairwise (deeper : TypeId → TypeId → Threaded Bool) (as bs : List TypeId) :
    Threaded Bool :=
  if as.length = bs.length then (as.zip bs).allM fun pair ↦ deeper pair.1 pair.2 else pure false

/-- One level of the comparison, given the comparison of parts. -/
def threadedStep (table : TypeTable) (deeper : TypeId → TypeId → Threaded Bool)
    (source target : TypeId) : Threaded Bool :=
  if source = target then pure true else
  match table.get source, table.get target with
  | .dynamic, _ => pure true
  | _, .dynamic => pure true
  | .union members, _ => members.allM fun member ↦ deeper member target
  | _, .union members => members.anyM fun member ↦ deeper source member
  | .primitive _, .primitive .object => pure false
  | .literal _, .primitive .object => pure false
  | .enumeration _, .primitive .object => pure false
  | _, .primitive .object => pure true
  | .literal value, .primitive kind => pure (value.widened = kind)
  | .array item, .array element => deeper item element
  | .tuple items, .array element => items.allM fun item ↦ deeper item element
  | .tuple items, .tuple wanted => threadedPairwise deeper items wanted
  | .generic name items, .generic other wanted =>
    if name = other then threadedPairwise deeper items wanted else pure false
  | _, .nominal name => table.threadedFits deeper source target (table.classFields name)
  | _, .shape fields => table.threadedFits deeper source target fields
  | _, _ => pure false

def threadedWithin (table : TypeTable) : Nat → TypeId → TypeId → Threaded Bool
  | 0, _, _ => failure
  | depth + 1, source, target => table.threadedStep (table.threadedWithin depth) source target

variable {table : TypeTable} {threaded : TypeId → TypeId → Threaded Bool} {deeper : Comparison}
  {assumed : Assumed} {a b : ℕ}

theorem restores_threadedPairwise {as bs : List TypeId}
    (h : ∀ x y, Restores (threaded x y) assumed.toFinset (deeper assumed x y)) :
    Restores (threadedPairwise threaded as bs) assumed.toFinset
      (pairwise (deeper assumed) as bs) := by
  rw [threadedPairwise, pairwise]
  split_ifs
  · exact .allM fun pair ↦ h pair.1 pair.2
  · exact restores_pure false

theorem restores_threadedFits {wanted : List Field}
    (h : ∀ assumed x y, Restores (threaded x y) assumed.toFinset (deeper assumed x y)) :
    Restores (table.threadedFits threaded a b wanted) assumed.toFinset
      (table.fits deeper assumed a b wanted) := by
  rw [threadedFits, fits]
  cases table.fieldsOf? (table.get a) with
  | none => exact restores_pure _
  | some fields =>
      simp only [← List.mem_toFinset (l := assumed)]
      refine .once ?_
      rw [← List.toFinset_cons]
      refine .allM fun want ↦ ?_
      cases fields.find? (·.name == want.name) with
      | none => exact restores_pure false
      | some field => exact h _ _ _

/-- One level hands the pairs back when the comparison of parts does, and answers the same. -/
theorem restores_threadedStep
    (h : ∀ assumed x y, Restores (threaded x y) assumed.toFinset (deeper assumed x y)) :
    Restores (table.threadedStep threaded a b) assumed.toFinset
      (table.assignableStep deeper assumed a b) := by
  rw [threadedStep, assignableStep]
  split_ifs
  · exact restores_pure true
  -- Only a source that is dynamic or a union is looked at before the target.
  have hmembers (members : List TypeId) :
      Restores (members.allM fun member ↦ threaded member b) assumed.toFinset
        (members.allM fun member ↦ deeper assumed member b) :=
    .allM fun member ↦ h assumed member b
  cases table.get b with
  | dynamic => cases table.get a <;> exact restores_pure true
  | union members =>
      cases table.get a with
      | dynamic => exact restores_pure true
      | union items => exact hmembers items
      | _ => exact .anyM fun member ↦ h assumed a member
  | primitive kind =>
      cases table.get a with
      | union items => exact hmembers items
      | _ => cases kind <;> exact restores_pure _
  | literal | enumeration =>
      cases table.get a with
      | union items => exact hmembers items
      | _ => exact restores_pure _
  | array element =>
      cases table.get a with
      | union items => exact hmembers items
      | array item => exact h assumed item element
      | tuple items => exact .allM fun item ↦ h assumed item element
      | _ => exact restores_pure _
  | tuple wanted =>
      cases table.get a with
      | union items => exact hmembers items
      | tuple items => exact restores_threadedPairwise (h assumed)
      | _ => exact restores_pure _
  | generic other wanted =>
      cases table.get a with
      | union items => exact hmembers items
      | generic name items =>
          dsimp only
          split_ifs
          · exact restores_threadedPairwise (h assumed)
          · exact restores_pure false
      | _ => exact restores_pure _
  | nominal | shape =>
      cases table.get a with
      | dynamic => exact restores_pure true
      | union items => exact hmembers items
      | _ => exact restores_threadedFits h

/-- Whatever pairs are under way, and however deep the comparison may go, it ends with the same
pairs and the answer that it gives when they are passed down. -/
theorem restores_threadedWithin (depth : ℕ) (assumed : Assumed) (a b : ℕ) :
    Restores (table.threadedWithin depth a b) assumed.toFinset
      (table.assignableWithin depth assumed a b) := by
  induction depth generalizing assumed a b with
  | zero => rfl
  | succ depth ih => exact restores_threadedStep ih

/-- In a built table a comparison with nothing under way has an answer and leaves nothing behind. -/
theorem restores_isAssignable (h : table.Built) {depth : ℕ}
    (hdepth : table.comparisonDepth ≤ depth) (a b : ℕ) :
    Restores (table.threadedWithin depth a b) ∅ (some (table.isAssignable a b)) :=
  assignableWithin_eq_some h hdepth a b ▸ restores_threadedWithin depth [] a b

/-- The two directions of an equivalence, one after the other with one set. -/
def threadedReciprocal (table : TypeTable) (depth : ℕ) (a b : TypeId) : Threaded Bool := do
  if (table.get a).isRigid || (table.get b).isRigid then
    return false
  if ← table.threadedWithin depth a b then
    table.threadedWithin depth b a
  else
    return false

/-- The second direction starts from what the first one leaves behind, which is nothing.  So they
answer like two comparisons with a set each. -/
theorem run_threadedReciprocal (h : table.Built) {depth : ℕ}
    (hdepth : table.comparisonDepth ≤ depth) (a b : ℕ) :
    (table.threadedReciprocal depth a b).run ∅ = some (table.reciprocal a b, ∅) := by
  change Restores (table.threadedReciprocal depth a b) ∅ (some (table.reciprocal a b))
  rw [threadedReciprocal, reciprocal]
  cases (table.get a).isRigid with
  | true => exact restores_pure false
  | false =>
      cases (table.get b).isRigid with
      | true => exact restores_pure false
      | false => exact (restores_isAssignable h hdepth a b).and (restores_isAssignable h hdepth b a)

end TypeTable

end Wiring
