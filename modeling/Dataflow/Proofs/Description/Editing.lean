import Dataflow.Description.Editing
import Dataflow.Proofs.Description
import Dataflow.Proofs.Description.Depth

/-! # What edits keep

An edit in place does what it computes, or it fails and leaves the tree as it was, however deep it acts. An
edit that succeeds gives the description at its path a value of its declared type, or adds or changes one
property there, with a tree that was itself made by edits; the rest of the tree stays. So in every tree that
edits can make, values have their declared types and names are distinct, at every depth. -/

namespace Dataflow

/-! ### Doing what is computed -/

namespace Editing
variable {change : Editing Unit} {f : Description → Result Description}

/-- Where the computation gives a description, the change puts it in place; where that fails, it fails alike and
    nothing has changed. -/
def Does (change : Editing Unit) (f : Description → Result Description) : Prop :=
  ∀ d, runFrom d change = match f d with
    | .ok d' => (.ok (), d')
    | .error err => (.error err, d)

theorem does_modify (g : Description → Description) : Does (modify g) fun d => .ok (g d) := fun _ => rfl

theorem does_setValue (v : Value) : Does (setValue v) (Description.setValue v) := by
  rintro ⟨type, doc, value, properties⟩
  unfold setValue Description.setValue
  rw [runFrom_bind_ok runFrom_get]
  by_cases h : v.type = type
  · simp only [Description.type, h, ne_eq, not_true_eq_false, if_false, if_true]
    rfl
  · simp only [Description.type, h, ne_eq, not_false_eq_true, if_false, if_true]
    rfl

theorem does_setPrimitive {α : Type} [Primitive α] (x : α) : Does (setPrimitive x) (Description.set x) := by
  intro d
  unfold setPrimitive Description.set
  rcases hx : Primitive.toValue x with err | v
  · rfl
  · rw [runFrom_lift_ok rfl]
    exact does_setValue v d

theorem does_replace (filled : Description) : Does (replace filled) fun p =>
    if p.type = filled.type then .ok (filled.withDoc p.doc) else .error (.typeMismatch p.type filled.type) := by
  intro d
  unfold replace
  rw [runFrom_bind_ok runFrom_get]
  by_cases h : d.type = filled.type
  · simp only [h, ne_eq, not_true_eq_false, if_false, if_true]
    rfl
  · simp only [h, ne_eq, not_false_eq_true, if_false, if_true]
    rfl

/-- A change of a property that fails leaves the property as it was, so putting it back changes nothing. -/
theorem Does.property (h : Does change f) (name : String) :
    Does (property name change) (Description.onProperty name f) := by
  intro d
  unfold Editing.property Description.onProperty
  rw [runFrom_bind_ok runFrom_get]
  rcases hp : d.property name with err | p
  · rfl
  rw [runFrom_lift_ok rfl, Result.ok_bind]
  have hrun : change.run.run p = _ := h p
  rw [hrun]
  rcases f p with err | q
  · have hsame : d.add name p = d := by
      obtain ⟨type, doc, value, properties⟩ := d
      exact congrArg (Description.mk type doc value) (Fields.put_of_get? (Description.property_eq_ok.mp hp))
    show (Except.error err, d.add name p) = _
    rw [hsame]
    rfl
  · rfl

theorem Does.path (h : Does change f) (names : List String) :
    Does (path names change) (Description.onPath names f) := by
  induction names with
  | nil => exact h
  | cons name rest ih => exact ih.property name

end Editing

namespace Edit
open Editing

theorem does (edit : Edit) : Does edit.act edit.apply := by
  cases edit with
  | addPrimitive α name doc => exact does_modify _
  | addDescribed name doc shape => exact does_modify _
  | add name p => exact does_modify _
  | setValue v => exact does_setValue v
  | set x => exact does_setPrimitive x
  | setProperty name x => exact (does_setPrimitive x).property name
  | fill name filled => exact (does_replace filled).property name

theorem does_at (path : List String) (edit : Edit) : Does (edit.actAt path) (Description.onPath path edit.apply) :=
  edit.does.path path

end Edit

/-! ### What an edit changes -/

namespace Description
variable {d d' p p' : Description} {v : Value} {name : String} {path : List String}

theorem setValue_eq_ok : d.setValue v = .ok d' ↔ v.type = d.type ∧ d' = mk d.type d.doc (some v) d.properties := by
  obtain ⟨type, text, value, properties⟩ := d
  by_cases h : v.type = type <;> simp [setValue, Description.type, doc, Description.properties, h, eq_comm]

theorem set_inv {α : Type} [Primitive α] {x : α} (h : d.set x = .ok d') : ∃ v, d.setValue v = .ok d' := by
  obtain ⟨v, -, hv⟩ := Result.bind_eq_ok.mp h
  exact ⟨v, hv⟩

/-- What is seen of a description without looking into its properties. -/
def label (d : Description) : String × String × Option Value × List String :=
    (d.type, d.doc, d.value, d.properties.names)

theorem names_add : (d.add name p).properties.names =
    if name ∈ d.properties.names then d.properties.names else d.properties.names ++ [name] :=
  Fields.names_put name p d.properties

theorem label_add (h : d.property name = .ok p) (q : Description) : (d.add name q).label = d.label := by
  have hmem : name ∈ d.properties.names := List.mem_map_of_mem (Fields.mem_of_get? (property_eq_ok.mp h))
  rw [label, names_add, if_pos hmem]
  rfl

/-- Changing the description that a path leads to changes that one, and no description elsewhere that the path does
    not lead through; those that it leads through look the same. -/
theorem onPath_inv {f : Description → Result Description} (h : d.onPath path f = .ok d') :
    ∃ p p', d.atPath path = .ok p ∧ f p = .ok p' ∧ d'.atPath path = .ok p' ∧
      ∀ other, ¬ path <+: other → (d'.atPath other).map label = (d.atPath other).map label := by
  induction path generalizing d d' with
  | nil => exact ⟨d, d', rfl, h, rfl, fun other hno => absurd (List.nil_prefix) hno⟩
  | cons name rest ih =>
    obtain ⟨q, q', hq, hrest, rfl⟩ := onProperty_eq_ok.mp h
    obtain ⟨p, p', hp, hf, hp', hframe⟩ := ih hrest
    have hdown : ∀ (other : String) (names : List String), (d.add name q').atPath (other :: names) =
        if name = other then q'.atPath names else d.atPath (other :: names) := by
      intro other names
      rw [atPath, property_add]
      split <;> rfl
    refine ⟨p, p', ?_, hf, ?_, ?_⟩
    · rw [atPath, hq]
      exact hp
    · rw [hdown, if_pos rfl]
      exact hp'
    · rintro (_ | ⟨other, names⟩) hno
      · exact congrArg Except.ok (label_add hq q')
      · rw [hdown]
        split
        case isTrue hname =>
          subst hname
          have hno' : ¬ rest <+: names := fun hpre => hno (List.cons_prefix_cons.mpr ⟨rfl, hpre⟩)
          rw [atPath, hq]
          exact hframe names hno'
        case isFalse => rfl

end Description

namespace Edit
open Description
variable {edit : Edit} {d d' : Description}

/-- An edit that succeeds gives the description a value of its type, or adds or changes one property. -/
theorem apply_inv (h : edit.apply d = .ok d') :
    (edit.name? = none ∧ ∃ v, v.type = d.type ∧ d' = .mk d.type d.doc (some v) d.properties) ∨
    ∃ name q, edit.name? = some name ∧ d' = d.add name q := by
  cases edit with
  | addPrimitive | addDescribed | add =>
    cases h
    exact .inr ⟨_, _, rfl, rfl⟩
  | setValue v => exact .inl ⟨rfl, v, setValue_eq_ok.mp h⟩
  | set x =>
    obtain ⟨v, hv⟩ := set_inv h
    exact .inl ⟨rfl, v, setValue_eq_ok.mp hv⟩
  | setProperty name x =>
    obtain ⟨q, rfl⟩ := setProperty_inv h
    exact .inr ⟨name, q, rfl, rfl⟩
  | fill name filled =>
    obtain ⟨doc, rfl⟩ := fill_inv h
    exact .inr ⟨name, _, rfl, rfl⟩

end Edit

/-! ### What edits keep at every depth -/

namespace Description
variable {d d' : Description} {path : List String}

theorem everywhere_blank (type doc : String) : (blank type doc).Everywhere Consistent :=
  .intro (consistent_blank type doc) nofun

theorem Everywhere.withDoc (h : d.Everywhere Consistent) (doc : String) : (d.withDoc doc).Everywhere Consistent := by
  obtain ⟨type, text, value, properties⟩ := d
  exact .intro ⟨h.here.typed, h.here.distinct⟩ h.inside

theorem Everywhere.setValue {v : Value} (h : d.Everywhere Consistent) (hv : d.setValue v = .ok d') :
    d'.Everywhere Consistent := by
  obtain ⟨htype, rfl⟩ := setValue_eq_ok.mp hv
  refine .intro ⟨fun w hw => ?_, h.here.distinct⟩ h.inside
  cases hw
  exact htype

theorem Everywhere.onProperty {f : Description → Result Description} {name : String} (h : d.Everywhere Consistent)
    (hf : ∀ p q, p.Everywhere Consistent → f p = .ok q → q.Everywhere Consistent)
    (hrun : d.onProperty name f = .ok d') :
    d'.Everywhere Consistent := by
  obtain ⟨p, q, hp, hq, rfl⟩ := onProperty_eq_ok.mp hrun
  exact h.add (h.here.add name q) (hf p q (h.property hp) hq)

theorem Everywhere.onPath {f : Description → Result Description} (h : d.Everywhere Consistent)
    (hf : ∀ p q, p.Everywhere Consistent → f p = .ok q → q.Everywhere Consistent) (hrun : d.onPath path f = .ok d') :
    d'.Everywhere Consistent := by
  induction path generalizing d d' with
  | nil => exact hf d d' h hrun
  | cons name rest ih => exact h.onProperty (fun _ _ => ih) hrun

theorem Everywhere.apply {edit : Edit} (h : d.Everywhere Consistent)
    (hgiven : ∀ p ∈ edit.given, p.Everywhere Consistent) (hrun : edit.apply d = .ok d') : d'.Everywhere Consistent := by
  cases edit with
  | addPrimitive α name doc =>
    cases hrun
    exact h.add (h.here.add name _) (everywhere_blank _ doc)
  | addDescribed name doc shape =>
    cases hrun
    exact h.add (h.here.add name _) ((hgiven shape List.mem_cons_self).withDoc doc)
  | add name p =>
    cases hrun
    exact h.add (h.here.add name p) (hgiven p List.mem_cons_self)
  | setValue v => exact h.setValue hrun
  | set x =>
    obtain ⟨v, hv⟩ := set_inv hrun
    exact h.setValue hv
  | setProperty name x =>
    refine h.onProperty (fun p q hp hq => ?_) hrun
    obtain ⟨v, hv⟩ := set_inv hq
    exact hp.setValue hv
  | fill name filled =>
    refine h.onProperty (fun p q _ hq => ?_) hrun
    split at hq
    · cases hq
      exact (hgiven filled List.mem_cons_self).withDoc p.doc
    · cases hq

/-- The descriptions that edits make from blank ones, at any path and with any trees made so; edits that fail are
    among them. -/
inductive Edited : Description → Prop
  | blank (type doc : String) : Edited (blank type doc)
  | edit {d : Description} (path : List String) (edit : Edit) (hd : Edited d) (hgiven : ∀ p ∈ edit.given, Edited p) :
      Edited (runFrom d (edit.actAt path)).2

theorem Edited.consistent (h : Edited d) : d.Everywhere Consistent := by
  induction h with
  | blank type doc => exact everywhere_blank type doc
  | @edit d path edit _ _ ih ihgiven =>
    rw [edit.does_at path d]
    rcases hrun : d.onPath path edit.apply with err | d'
    · exact ih
    · exact ih.onPath (fun p q hp hq => hp.apply ihgiven hq) hrun

/-- Wherever edits have led, each value in the tree has the type that is declared for it and the names of the
    properties of each description are distinct. An edit that fails leaves the whole tree as it is. One that
    succeeds leaves the names at its path in their order and puts a new name behind them; the other properties
    there are as they were, and so is all that the path does not lead through. -/
theorem Edited.stays_consistent (h : Edited d) :
    d.Everywhere Consistent ∧ ∀ (path : List String) (edit : Edit),
      (∀ err d', runFrom d (edit.actAt path) = (.error err, d') → d' = d) ∧
      ∀ d', runFrom d (edit.actAt path) = (.ok (), d') →
        ∃ p p', d.atPath path = .ok p ∧ d'.atPath path = .ok p' ∧
          (p'.properties.names = match edit.name? with
            | some name => if name ∈ p.properties.names then p.properties.names else p.properties.names ++ [name]
            | none => p.properties.names) ∧
          (∀ other, edit.name? ≠ some other → p'.property other = p.property other) ∧
          ∀ other, ¬ path <+: other → (d'.atPath other).map label = (d.atPath other).map label := by
  refine ⟨h.consistent, fun path edit => ?_⟩
  rw [edit.does_at path d]
  rcases hrun : d.onPath path edit.apply with err | d₁
  · refine ⟨fun err' d' hfail => ?_, fun d' hok => (by cases hok)⟩
    cases hfail
    rfl
  refine ⟨fun err d' hfail => (by cases hfail), fun d' hok => ?_⟩
  cases hok
  obtain ⟨p, p', hp, hedit, hp', hframe⟩ := onPath_inv hrun
  refine ⟨p, p', hp, hp', ?_, ?_, hframe⟩
  · rcases Edit.apply_inv hedit with ⟨hname, v, -, rfl⟩ | ⟨name, q, hname, rfl⟩
    · rw [hname]
      rfl
    · rw [hname]
      exact names_add
  · intro other hother
    rcases Edit.apply_inv hedit with ⟨-, v, -, rfl⟩ | ⟨name, q, hname, rfl⟩
    · rfl
    · have hne : name ≠ other := fun e => hother (e ▸ hname)
      rw [property_add, if_neg hne]

def point : Description := .mk "Point" "" none [("x", .mk "int" "across" none [])]

def segment : Description :=
  .mk "Segment" "" none [("start", .mk "Point" "from here" none [("x", .mk "int" "across" (some (.int 4)) [])])]

theorem edited_segment : Edited segment := by
  have hpoint : Edited point := .edit [] (.addPrimitive Nat "x" "across") (.blank "Point" "") nofun
  have hgiven : ∀ p ∈ (Edit.addDescribed "start" "from here" point).given, Edited p := by
    intro p hp
    cases List.mem_singleton.mp hp
    exact hpoint
  have hstart := Edited.edit [] (.addDescribed "start" "from here" point) (.blank "Segment" "") hgiven
  exact .edit ["start"] (.setProperty "x" 4) hstart nofun

/-- A text is no coordinate; a second coordinate comes after the first. -/
theorem segment_stays_consistent : ∃ d p, segment.Everywhere Consistent ∧
    runFrom segment (Edit.actAt ["start"] (.setProperty "x" "far")) = (.error (.typeMismatch "int" "string"), segment) ∧
    runFrom segment (Edit.actAt ["start"] (.addPrimitive Nat "y" "up")) = (.ok (), d) ∧
    d.atPath ["start"] = .ok p ∧ p.properties.names = ["x", "y"] := by
  obtain ⟨hconsistent, hedits⟩ := edited_segment.stays_consistent
  obtain ⟨p, p', hp, hp', hnames, -, -⟩ := (hedits ["start"] (.addPrimitive Nat "y" "up")).2 _ rfl
  cases hp
  exact ⟨_, p', hconsistent, rfl, rfl, hp', hnames⟩

end Description
end Dataflow
