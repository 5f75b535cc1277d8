import Wiring.Proofs.Graph.Built
import Wiring.Proofs.Types.Canonical

/-!
# Deferred providers

A provider of a graph that is built by declarations is deferred exactly if its product is a promise:
a deferred provider gets its product wrapped, and a provider of a promise counts as deferred.
-/

namespace Wiring.Graph

variable {graph : Graph}

/-- The products of the providers are types of the graph, and promises for the deferred ones. -/
def Deferring (graph : Graph) : Prop :=
  ∀ provider ∈ graph.providers, provider.returns < graph.types.size ∧
    provider.deferred = graph.types.isPromise provider.returns

theorem Deferring.withTypes (h : graph.Deferring) {types : TypeTable}
    (hgrows : graph.types.Grows types) : Deferring { graph with types := types } := by
  intro provider hprovider
  obtain ⟨hreturns, hdeferred⟩ := h provider hprovider
  exact ⟨Nat.lt_of_lt_of_le hreturns hgrows.size_le,
    hdeferred.trans (hgrows.isPromise_eq hreturns).symm⟩

/-- What a provider delivers is a promise exactly if the provider is deferred or promises anyway. -/
theorem delivered_spec {types : TypeTable} {returns : TypeId} (hreturns : returns < types.size)
    (deferred : Bool) :
    types.Grows (delivered types returns deferred).2 ∧
      (delivered types returns deferred).1 < (delivered types returns deferred).2.size ∧
      (deferred || types.isPromise returns) =
        (delivered types returns deferred).2.isPromise (delivered types returns deferred).1 := by
  rw [delivered]
  split_ifs with hwrapped
  · obtain ⟨hadded, hget, -⟩ :=
      types.add_spec (.generic TypeTable.promiseName [returns])
    have hpromise : (types.promiseOf returns).2.isPromise (types.promiseOf returns).1 = true := by
      have hsame : (types.promiseOf returns).2.get (types.promiseOf returns).1 = _ := hget
      rw [TypeTable.isPromise, TypeTable.promised?, TypeTable.argumentOf?, hsame]
      rfl
    rw [hpromise, (Bool.and_eq_true_iff.mp hwrapped).1, Bool.true_or]
    exact ⟨types.grows_add _, hadded, rfl⟩
  · refine ⟨.refl types, hreturns, ?_⟩
    cases deferred <;> simp_all

theorem Deferring.addProvider (h : graph.Deferring) {returns : TypeId}
    (hreturns : returns < graph.types.size) (owner : ModuleId) (name : String)
    (parameters : List TypeId) (deferred : Bool) :
    (graph.addProvider owner name parameters returns deferred).2.Deferring := by
  obtain ⟨hgrows, hproduct, hpromise⟩ := delivered_spec hreturns deferred
  intro provider hprovider
  rcases List.mem_append.mp hprovider with hold | hnew
  · exact h.withTypes hgrows provider hold
  · obtain rfl := List.mem_singleton.mp hnew
    exact ⟨hproduct, hpromise⟩

theorem Built.deferring (h : graph.Built) : graph.Deferring := by
  induction h with
  | empty => exact List.forall_mem_nil _
  | intern _ descriptor parts ih => exact ih.withTypes (TypeTable.grows_intern _ descriptor)
  | defineClass _ name fields present ih => exact ih.withTypes (.refl _)
  | addModule _ name source added ih =>
      obtain ⟨-, -, rfl⟩ := addModule_eq_ok_iff.mp added
      exact ih
  | addProvider _ owner name parameters returns deferred _ _ product ih =>
      exact ih.addProvider product owner name parameters deferred
  | addInclude _ owner included _ _ ih => exact ih
  | addRequired _ owner type _ _ ih => exact ih
  | addComponent _ name source root _ added ih =>
      obtain ⟨-, -, rfl⟩ := addComponent_eq_ok_iff.mp added
      exact ih
  | addResolver _ component name returns _ _ ih => exact ih

end Wiring.Graph
