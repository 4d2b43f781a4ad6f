import Dataflow.Proofs.Action
import Dataflow.Proofs.Description.Depth

/-! # Shapes of a description

A shape of a description is the same tree without its values, in which a composite property may also be open, so that
it declares nothing of its own. A shape together with the undocumented tree tells the description, but for the
documentation under what is open. -/

namespace Dataflow
namespace Description

mutual

/-- The description without any documentation. -/
def bare : Description → Description
  | mk type _ value properties => mk type "" value (bareAll properties)

def bareAll : List (String × Description) → List (String × Description)
  | [] => []
  | (name, p) :: rest => (name, p.bare) :: bareAll rest

end

mutual

/-- The description without any values, and without the properties of those that are open. -/
def outline (isOpen : List String → Bool) : Description → Description
  | mk type doc _ properties =>
    if isOpen [] then blank type doc else mk type doc none (outlineAll isOpen properties)

def outlineAll (isOpen : List String → Bool) : List (String × Description) → List (String × Description)
  | [] => []
  | (name, p) :: rest => (name, p.outline fun path => isOpen (name :: path)) :: outlineAll isOpen rest

end

mutual

/-- The description without the documentation of what is under those that are open. -/
def recovered (isOpen : List String → Bool) : Description → Description
  | mk type doc value properties =>
    mk type doc value (if isOpen [] then bareAll properties else recoveredAll isOpen properties)

def recoveredAll (isOpen : List String → Bool) : List (String × Description) → List (String × Description)
  | [] => []
  | (name, p) :: rest => (name, p.recovered fun path => isOpen (name :: path)) :: recoveredAll isOpen rest

end

variable {d p : Description} {isOpen : List String → Bool} {name : String} {path : List String}

theorem outline_eq_blank (h : isOpen [] = true ∨ d.properties = []) :
    d.outline isOpen = blank d.type d.doc := by
  obtain ⟨type, doc, value, properties⟩ := d
  rw [outline]
  split
  · rfl
  · rcases h with h | rfl
    · contradiction
    · rfl

theorem recovered_eq_bareAll (h : isOpen [] = true ∨ d.properties = []) :
    d.recovered isOpen = .mk d.type d.doc d.value (bareAll d.properties) := by
  obtain ⟨type, doc, value, properties⟩ := d
  rw [recovered]
  split
  · rfl
  · rcases h with h | rfl
    · contradiction
    · rfl

theorem outline_eq_mk (h : ¬ isOpen [] = true) :
    d.outline isOpen = .mk d.type d.doc none (outlineAll isOpen d.properties) := by
  cases d
  exact if_neg h

theorem recovered_eq_mk (h : ¬ isOpen [] = true) :
    d.recovered isOpen = .mk d.type d.doc d.value (recoveredAll isOpen d.properties) := by
  cases d
  rw [recovered, if_neg h]
  rfl

/-! What is recovered differs from the description in its documentation alone, and where nothing is open not even in
that. -/

mutual

theorem bare_bare : (d : Description) → d.bare.bare = d.bare
  | mk type _ value properties => by rw [bare, bare, bareAll_bareAll properties]

theorem bareAll_bareAll : (ps : List (String × Description)) → bareAll (bareAll ps) = bareAll ps
  | [] => rfl
  | (name, p) :: rest => by rw [bareAll, bareAll, bare_bare p, bareAll_bareAll rest]

end

mutual

theorem bare_recovered (isOpen : List String → Bool) : (d : Description) → (d.recovered isOpen).bare = d.bare
  | mk type _ value properties => by
    rw [recovered, bare, bare]
    split
    · rw [bareAll_bareAll]
    · rw [bareAll_recoveredAll isOpen properties]

theorem bareAll_recoveredAll (isOpen : List String → Bool) :
    (ps : List (String × Description)) → bareAll (recoveredAll isOpen ps) = bareAll ps
  | [] => rfl
  | (name, p) :: rest => by
    rw [recoveredAll, bareAll, bareAll, bare_recovered _ p, bareAll_recoveredAll isOpen rest]

end

mutual

theorem recovered_of_closed : (d : Description) → d.recovered (fun _ => false) = d
  | mk type _ value properties => by rw [recovered, if_neg Bool.false_ne_true, recoveredAll_of_closed properties]

theorem recoveredAll_of_closed : (ps : List (String × Description)) → recoveredAll (fun _ => false) ps = ps
  | [] => rfl
  | (name, p) :: rest => by rw [recoveredAll, recovered_of_closed p, recoveredAll_of_closed rest]

end

/-! ### Documentation along paths -/

/-- Some description that the path leads through, before its end, is open. -/
def UnderOpen (isOpen : List String → Bool) (path : List String) : Prop :=
  ∃ above, above <+: path ∧ above ≠ path ∧ isOpen above = true

theorem not_underOpen_nil : ¬ UnderOpen isOpen [] := by
  rintro ⟨above, hprefix, hne, -⟩
  exact hne (List.prefix_nil.mp hprefix)

theorem underOpen_cons :
    UnderOpen isOpen (name :: path) ↔ isOpen [] = true ∨ UnderOpen (fun path => isOpen (name :: path)) path := by
  constructor
  · rintro ⟨above, hprefix, hne, hopen⟩
    rcases List.prefix_cons_iff.mp hprefix with rfl | ⟨above, rfl, hprefix⟩
    · exact .inl hopen
    · exact .inr ⟨above, (List.cons_prefix_cons.mp hprefix).2, fun h => hne (h ▸ rfl), hopen⟩
  · rintro (hopen | ⟨above, hprefix, hne, hopen⟩)
    · exact ⟨[], List.nil_prefix, nofun, hopen⟩
    · exact ⟨name :: above, List.cons_prefix_cons.mpr ⟨rfl, hprefix⟩, fun h => hne (List.cons.inj h).2, hopen⟩

theorem get?_bareAll {ps : Fields Description} : Fields.get? name (bareAll ps) = (Fields.get? name ps).map bare := by
  induction ps with
  | nil => rfl
  | cons q rest ih =>
    obtain ⟨other, p⟩ := q
    by_cases h : other = name <;> simp [bareAll, Fields.get?, h, ih]

theorem get?_recoveredAll {ps : Fields Description} :
    Fields.get? name (recoveredAll isOpen ps) =
      (Fields.get? name ps).map (recovered fun path => isOpen (name :: path)) := by
  induction ps with
  | nil => rfl
  | cons q rest ih =>
    obtain ⟨other, p⟩ := q
    by_cases h : other = name <;> simp [recoveredAll, Fields.get?, h, ih]

theorem atPath_bare (h : d.atPath path = .ok p) : d.bare.atPath path = .ok p.bare := by
  induction path generalizing d with
  | nil =>
    cases h
    rfl
  | cons name rest ih =>
    obtain ⟨q, hq, h⟩ := Result.bind_eq_ok.mp h
    have hbare : d.bare.property name = .ok q.bare := by
      cases d
      rw [property_eq_ok] at hq ⊢
      exact get?_bareAll.trans (congrArg (Option.map bare) hq)
    rw [atPath, hbare]
    exact ih h

/-- The documentation is kept, except under open descriptions, where there is none. -/
theorem doc_recovered (h : d.atPath path = .ok p) : ∃ q, (d.recovered isOpen).atPath path = .ok q ∧
    (UnderOpen isOpen path → q.doc = "") ∧ (¬ UnderOpen isOpen path → q.doc = p.doc) := by
  induction path generalizing d isOpen with
  | nil =>
    cases h
    refine ⟨_, rfl, fun hunder => absurd hunder not_underOpen_nil, fun _ => ?_⟩
    cases p
    rfl
  | cons name rest ih =>
    obtain ⟨q, hq, h⟩ := Result.bind_eq_ok.mp h
    have hget : Fields.get? name d.properties = some q := property_eq_ok.mp hq
    rw [underOpen_cons]
    by_cases hopen : isOpen [] = true
    · have hproperty : (d.recovered isOpen).property name = .ok q.bare := by
        rw [recovered_eq_bareAll (.inl hopen), property_eq_ok]
        exact get?_bareAll.trans (congrArg (Option.map bare) hget)
      refine ⟨p.bare, ?_, fun _ => ?_, fun hno => absurd (.inl hopen) hno⟩
      · rw [atPath, hproperty]
        exact atPath_bare h
      · cases p
        rfl
    · have hproperty : (d.recovered isOpen).property name = .ok (q.recovered fun path => isOpen (name :: path)) := by
        rw [recovered_eq_mk hopen, property_eq_ok]
        exact get?_recoveredAll.trans (congrArg (Option.map _) hget)
      obtain ⟨r, hr, hunder, hkept⟩ := @ih q (fun path => isOpen (name :: path)) h
      refine ⟨r, ?_, ?_, ?_⟩
      · rw [atPath, hproperty]
        exact hr
      · rintro (h | h)
        · contradiction
        · exact hunder h
      · exact fun hno => hkept fun h => hno (.inr h)

end Description

end Dataflow
