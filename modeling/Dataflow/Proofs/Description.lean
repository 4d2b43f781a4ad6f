import Dataflow.Builtin.Basic
import Dataflow.Proofs.Action
import Mathlib.Data.List.Nodup

/-! # What descriptions hold

Declaring a property leaves the others as they were, and the parts of a list stand under their positions. So
the description of a node has, for each of its inputs, a description of each span that feeds it, in order. -/

namespace Dataflow

/-- Numbers that are written alike are the same. -/
theorem toString_nat_injective : Function.Injective (toString : Nat → String) := by
  intro i j h
  have hdigits : Nat.toDigits 10 i = Nat.toDigits 10 j := by
    rw [← Nat.toList_repr, ← Nat.toList_repr]
    exact congrArg String.toList h
  rw [← Nat.ofDigitChars_ten_toDigits (n := i), hdigits, Nat.ofDigitChars_ten_toDigits]

namespace Description
variable {d d' p x : Description} {name other : String}

/-! ### Properties -/

theorem property_add : (d.add name p).property other = if name = other then .ok p else d.property other := by
  by_cases h : name = other
  · subst h
    simp [property, add, properties, Fields.get?_put_self]
  · simp [property, add, properties, type, Fields.get?_put_of_ne h, h]

theorem onProperty_eq_ok {f : Description → Result Description} :
    d.onProperty name f = .ok d' ↔ ∃ p q, d.property name = .ok p ∧ f p = .ok q ∧ d' = d.add name q := by
  unfold onProperty
  constructor
  · intro h
    obtain ⟨p, hp, h⟩ := Result.bind_eq_ok.mp h
    obtain ⟨q, hq, h⟩ := Result.bind_eq_ok.mp h
    cases h
    exact ⟨p, q, hp, hq, rfl⟩
  · rintro ⟨p, q, hp, hq, rfl⟩
    rw [hp, Result.ok_bind, hq]
    rfl

/-- A property is filled with what it is given, except for its documentation. -/
theorem fill_inv (h : d.fill name x = .ok d') : ∃ doc, d' = d.add name (x.withDoc doc) := by
  obtain ⟨p, q, -, hq, rfl⟩ := onProperty_eq_ok.mp h
  split at hq
  · cases hq
    exact ⟨p.doc, rfl⟩
  · cases hq

theorem setProperty_inv {α : Type} [Primitive α] {a : α} (h : d.setProperty name a = .ok d') :
    ∃ p, d' = d.add name p := by
  obtain ⟨p, q, -, -, rfl⟩ := onProperty_eq_ok.mp h
  exact ⟨q, rfl⟩

/-- A size or position that a property was set to has half of all sizes above it. -/
theorem lt_of_setProperty {k : Nat} (h : d.setProperty name k = .ok d') : k < 9223372036854775808 := by
  have hlimit : Int.ofNat (Nat.pow 2 (64 - 1)) = 9223372036854775808 := rfl
  obtain ⟨p, q, -, hset, -⟩ := onProperty_eq_ok.mp h
  obtain ⟨v, hv, -⟩ := Result.bind_eq_ok.mp hset
  have hv : Value.ofInt k = .ok v := hv
  unfold Value.ofInt at hv
  split at hv
  case isTrue hsigned =>
    have := (isSigned_iff.mp hsigned).2
    omega
  case isFalse => cases hv

theorem property_withDoc_eq_ok {doc : String} : (d.withDoc doc).property name = .ok p ↔ d.property name = .ok p := by
  obtain ⟨type, doc', value, properties⟩ := d
  unfold property withDoc Description.properties
  dsimp only
  cases Fields.get? name properties <;> simp

/-! ### Lists of parts -/

/-- What stands under each position. -/
def numbered (parts : List Description) : Fields Description := parts.zipIdx.map fun (p, i) => (toString i, p)

theorem length_numbered {parts : List Description} : (numbered parts).length = parts.length := by simp [numbered]

theorem nodup_numbered {parts : List Description} : (numbered parts).names.Nodup := by
  have hnames : (numbered parts).names = (List.range' 0 parts.length).map toString := by
    simp only [Fields.names, numbered, List.map_map, ← List.zipIdx_map_snd]
    rfl
  rw [hnames]
  exact List.Nodup.map toString_nat_injective List.nodup_range'

/-- Parts that are put under their positions stand in order. -/
theorem properties_foldl_add {parts : List Description} (h : d.properties = []) :
    (parts.zipIdx.foldl (fun all (p, i) => all.add (toString i) p) d).properties = numbered parts := by
  have hput : ∀ (ps : List (Description × Nat)) (d : Description),
      (ps.foldl (fun all (p, i) => all.add (toString i) p) d).properties =
        (ps.map fun (p, i) => (toString i, p)).foldl (fun acc q => Fields.put q.1 q.2 acc) d.properties := by
    intro ps
    induction ps with
    | nil => intro d; rfl
    | cons q rest ih => intro d; exact ih _
  rw [hput, h]
  exact Fields.foldl_put nodup_numbered (by simp [Fields.names])

end Description

/-! ### Wires and nodes -/

open Description

theorem Span.lt_of_describe {s : Span} {d : Description} (h : Describe.describe s = .ok d) :
    s.start < 9223372036854775808 ∧ s.size < 9223372036854775808 := by
  obtain ⟨_, -, h⟩ := Result.bind_eq_ok.mp h
  obtain ⟨_, -, h⟩ := Result.bind_eq_ok.mp h
  obtain ⟨_, -, h⟩ := Result.bind_eq_ok.mp h
  obtain ⟨_, hstart, hsize⟩ := Result.bind_eq_ok.mp h
  exact ⟨lt_of_setProperty hstart, lt_of_setProperty hsize⟩

/-- The description of a wire has one of each span, in order. -/
theorem Wire.describe_inv {w : Wire} {d : Description} (h : Describe.describe w = .ok d) :
    ∃ parts ranges, w.spans.mapM Describe.describe = .ok parts ∧ d.property "ranges" = .ok ranges ∧
      ranges.properties = numbered parts := by
  obtain ⟨sized, hsized, h⟩ := Result.bind_eq_ok.mp h
  obtain ⟨parts, hparts, h⟩ := Result.bind_eq_ok.mp h
  obtain ⟨_, rfl⟩ := setProperty_inv hsized
  obtain ⟨blank, ranges, hblank, hranges, rfl⟩ := onProperty_eq_ok.mp h
  cases hblank
  cases hranges
  exact ⟨parts, _, hparts, by rw [property_add, if_pos rfl], properties_foldl_add rfl⟩

namespace Builtin
variable {n : Builtin} {d : Description} {i : Input}

/-- Under the name of an input stands the description of its wire. -/
theorem describe_input (h : n.describe = .ok d) (hi : i ∈ n.inputs) :
    ∃ wire doc, Describe.describe i.wire = .ok wire ∧ d.property i.name = .ok (wire.withDoc doc) := by
  have filled {α : Type} [Describe α] {d d' : Description} {name : String} {x : α}
      (h : (Describe.describe x >>= d.fill name) = .ok d') :
      ∃ p doc, Describe.describe x = .ok p ∧ d' = d.add name (p.withDoc doc) := by
    obtain ⟨p, hp, h⟩ := Result.bind_eq_ok.mp h
    obtain ⟨doc, rfl⟩ := fill_inv h
    exact ⟨p, doc, hp, rfl⟩
  cases n with
  | input | constant => cases hi
  | dot t a b =>
    obtain ⟨d₁, h₁, h⟩ := Result.bind_eq_ok.mp h
    obtain ⟨d₂, h₂, h⟩ := Result.bind_eq_ok.mp h
    obtain ⟨pa, da, ha, rfl⟩ := filled h₁
    obtain ⟨pb, db, hb, rfl⟩ := filled h₂
    obtain ⟨_, _, -, rfl⟩ := filled h
    rcases List.mem_pair.mp hi with rfl | rfl
    · exact ⟨pa, da, ha, by simp [property_add]⟩
    · exact ⟨pb, db, hb, by simp [property_add]⟩
  | binary t op a b =>
    obtain ⟨d₁, h₁, h⟩ := Result.bind_eq_ok.mp h
    obtain ⟨d₂, h₂, h⟩ := Result.bind_eq_ok.mp h
    obtain ⟨d₃, h₃, h⟩ := Result.bind_eq_ok.mp h
    obtain ⟨pa, da, ha, rfl⟩ := filled h₁
    obtain ⟨pb, db, hb, rfl⟩ := filled h₂
    obtain ⟨_, rfl⟩ := setProperty_inv h₃
    obtain ⟨_, _, -, rfl⟩ := filled h
    rcases List.mem_pair.mp hi with rfl | rfl
    · exact ⟨pa, da, ha, by simp [property_add]⟩
    · exact ⟨pb, db, hb, by simp [property_add]⟩
  | linear x p =>
    obtain ⟨d₁, h₁, h⟩ := Result.bind_eq_ok.mp h
    obtain ⟨d₂, h₂, h⟩ := Result.bind_eq_ok.mp h
    obtain ⟨d₃, h₃, h⟩ := Result.bind_eq_ok.mp h
    obtain ⟨px, dx, hx, rfl⟩ := filled h₁
    obtain ⟨_, _, -, rfl⟩ := filled h₂
    obtain ⟨_, _, -, rfl⟩ := filled h₃
    obtain ⟨_, _, -, rfl⟩ := filled h
    rw [List.mem_singleton.mp hi]
    exact ⟨px, dx, hx, by simp [property_add]⟩

/-- The description of a node tells how many spans feed each input. -/
theorem describe_ranges (h : n.describe = .ok d) (hi : i ∈ n.inputs) :
    ∃ ranges, d.atPath [i.name, "ranges"] = .ok ranges ∧ ranges.properties.length = i.wire.spans.length := by
  obtain ⟨wire, doc, hwire, hproperty⟩ := describe_input h hi
  obtain ⟨parts, ranges, hparts, hranges, hnumbered⟩ := Wire.describe_inv hwire
  refine ⟨ranges, ?_, ?_⟩
  · simp only [atPath, hproperty, Result.ok_bind, property_withDoc_eq_ok.mpr hranges]
  · rw [hnumbered, length_numbered]
    exact (Result.mapM_eq_ok.mp hparts).length_eq.symm

/-- A node that can be described reads no span whose end wraps around. -/
theorem spans_of_describe (h : n.describe = .ok d) :
    ∀ s ∈ Node.spans n, s.start < 9223372036854775808 ∧ s.size < 9223372036854775808 := by
  intro s hs
  obtain ⟨i, hi, hs⟩ := List.mem_flatMap.mp hs
  obtain ⟨wire, -, hwire, -⟩ := describe_input h hi
  obtain ⟨parts, -, hparts, -⟩ := Wire.describe_inv hwire
  obtain ⟨part, -, hpart⟩ := forall₂_of_mem (Result.mapM_eq_ok.mp hparts) s hs
  exact Span.lt_of_describe hpart

end Builtin
end Dataflow
