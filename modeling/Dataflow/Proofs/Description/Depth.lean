import Dataflow.Description

/-! # What holds of a description at every depth

A property of descriptions holds everywhere in a tree if it holds of the root and everywhere in the trees
under it. It then holds wherever a path of names leads, and a tree that is put under a description keeps it. -/

namespace Dataflow
namespace Description
variable {P : Description → Prop} {d d' p q : Description} {name : String}

/-- The property holds of a description and of all that are under it. -/
inductive Everywhere (P : Description → Prop) : Description → Prop
  | intro {d : Description} (here : P d) (inside : ∀ q ∈ d.properties, Everywhere P q.2) : Everywhere P d

theorem Everywhere.here (h : d.Everywhere P) : P d := by
  cases h with
  | intro here _ => exact here

theorem Everywhere.inside (h : d.Everywhere P) : ∀ q ∈ d.properties, q.2.Everywhere P := by
  cases h with
  | intro _ inside => exact inside

theorem property_eq_ok : d.property name = .ok p ↔ Fields.get? name d.properties = some p := by
  unfold property
  cases Fields.get? name d.properties <;> simp

theorem Everywhere.property (h : d.Everywhere P) (hp : d.property name = .ok p) : p.Everywhere P :=
  h.inside (name, p) (Fields.mem_of_get? (property_eq_ok.mp hp))

theorem Everywhere.add (h : d.Everywhere P) (hadd : P (d.add name q)) (hq : q.Everywhere P) :
    (d.add name q).Everywhere P := by
  refine .intro hadd fun r hr => ?_
  rcases Fields.mem_put hr with rfl | hr
  · exact hq
  · exact h.inside r hr

/-- A value has the type that is declared for it, and no two properties have one name. -/
structure Consistent (d : Description) : Prop where
  typed : ∀ v, d.value = some v → v.type = d.type
  distinct : d.properties.names.Nodup

theorem consistent_blank (type doc : String) : (blank type doc).Consistent := ⟨nofun, List.nodup_nil⟩

theorem Consistent.add (h : d.Consistent) (name : String) (q : Description) : (d.add name q).Consistent :=
  ⟨h.typed, Fields.nodup_names_put name q h.distinct⟩

end Description
end Dataflow
